/- source: apps/solid-typefacts/src/demands.rs -/

import SolidChecker.Foundation.Rows
import SolidChecker.Producer.Demands

namespace SolidChecker.Producer

open Foundation List

variable {K C : Type}

abbrev DemandGroups (K C : Type) := Rows (DemandGroup.path (K := K) (C := C))

namespace DemandTransaction

def finish (transaction : DemandTransaction K C) : DemandTransaction K C :=
  { transaction with undo := [], resetOld := none }

/-- The groups a published transaction leaves: nothing is taken back when it is dropped. -/
def commit (transaction : DemandTransaction K C) : List (DemandGroup K C) :=
  transaction.finish.rollback

private theorem place_eq (groups : List (DemandGroup K C)) (path : Path) :
    place groups path = Rows.place DemandGroup.path groups path := by
  unfold place Rows.place
  congr!

section

variable (transaction : DemandTransaction K C) (groups : DemandGroups K C)

private theorem replace_groups (holds : transaction.groups = groups.list) (group : DemandGroup K C) :
    (transaction.replace group).groups = (groups.insert group).list := by
  have edited : (groups.insert group).list = _ :=
    groups.put_list (show ∀ row ∈ some group, row.path = group.path by simp)
  rw [edited, groups.get_place, replace, holds, place_eq]
  cases groups.list[Rows.place DemandGroup.path groups.list group.path]? with
  | none => rfl
  | some previous =>
    by_cases same : previous.path = group.path <;> simp [Option.filter_some, same]

private theorem remove_groups (holds : transaction.groups = groups.list) (path : Path) :
    (transaction.remove path).groups = (groups.erase path).list := by
  have edited : (groups.erase path).list = _ :=
    groups.put_list (show ∀ row ∈ none, DemandGroup.path row = path by simp)
  rw [edited, groups.get_place, remove, holds, place_eq]
  cases groups.list[Rows.place DemandGroup.path groups.list path]? with
  | none => exact holds
  | some previous =>
    by_cases same : previous.path = path <;> simp [Option.filter_some, same, holds]

private theorem rollback_replace (group : DemandGroup K C) :
    (transaction.replace group).rollback = transaction.rollback := by
  simp only [replace]
  split
  · rename_i previous found
    split
    · simp only [rollback, List.foldl_cons, undoStep, set_set]
      obtain ⟨within, rfl⟩ := List.getElem?_eq_some_iff.mp found
      rw [List.set_getElem_self]
    · simp only [rollback, List.foldl_cons, undoStep, List.eraseIdx_insertIdx_self]
  · simp only [rollback, List.foldl_cons, undoStep, List.eraseIdx_insertIdx_self]

private theorem rollback_remove (path : Path) :
    (transaction.remove path).rollback = transaction.rollback := by
  simp only [remove]
  split
  · rename_i previous found
    split
    · obtain ⟨within, rfl⟩ := List.getElem?_eq_some_iff.mp found
      simp only [rollback, List.foldl_cons, undoStep]
      rw [List.insertIdx_eraseIdx_getElem within]
    · rfl
  · rfl

end

end DemandTransaction

def DemandGroups.edited (groups : DemandGroups K C) (runs : List (DemandGroup K C))
    (removed : List Path) (reset : Bool) : DemandGroups K C :=
  (removed.map Path.clean).foldl (fun rows path => rows.erase path)
    (runs.foldl (fun rows group => rows.insert group) (if reset then Rows.empty else groups))

section

open DemandTransaction

private theorem foldl_replace (runs : List (DemandGroup K C)) (transaction : DemandTransaction K C)
    (groups : DemandGroups K C) (holds : transaction.groups = groups.list) :
    (runs.foldl replace transaction).groups =
        (runs.foldl (fun rows group => rows.insert group) groups).list ∧
      (runs.foldl replace transaction).rollback = transaction.rollback := by
  induction runs generalizing transaction groups with
  | nil => exact ⟨holds, rfl⟩
  | cons group runs ih =>
    obtain ⟨held, restores⟩ := ih (transaction.replace group) (groups.insert group)
      (replace_groups transaction groups holds group)
    exact ⟨held, restores.trans (rollback_replace transaction group)⟩

private theorem foldl_remove (paths : List Path) (transaction : DemandTransaction K C)
    (groups : DemandGroups K C) (holds : transaction.groups = groups.list) :
    (paths.foldl remove transaction).groups =
        (paths.foldl (fun rows path => rows.erase path) groups).list ∧
      (paths.foldl remove transaction).rollback = transaction.rollback := by
  induction paths generalizing transaction groups with
  | nil => exact ⟨holds, rfl⟩
  | cons path paths ih =>
    obtain ⟨held, restores⟩ := ih (transaction.remove path) (groups.erase path)
      (remove_groups transaction groups holds path)
    exact ⟨held, restores.trans (rollback_remove transaction path)⟩

theorem beginRuns_spec (groups : DemandGroups K C) (runs : List (DemandGroup K C))
    (removed : List Path) (reset : Bool) :
    (beginRuns groups.list runs removed reset).groups = (groups.edited runs removed reset).list ∧
      (beginRuns groups.list runs removed reset).rollback = groups.list := by
  let started : DemandTransaction K C :=
    { groups := if reset then [] else groups.list
      undo := []
      changedPaths := (runs.map DemandGroup.path ++ removed.map Path.clean).toFinset.sort (· ≤ ·)
      resetOld := if reset then some groups.list else none }
  have holds : started.groups = (if reset then .empty else groups).list := by
    cases reset <;> rfl
  have restored : started.rollback = groups.list := by
    cases reset <;> rfl
  obtain ⟨replaced, fromReplaced⟩ := foldl_replace runs started _ holds
  obtain ⟨removedToo, fromRemoved⟩ := foldl_remove (removed.map Path.clean) _ _ replaced
  exact ⟨removedToo, fromRemoved.trans (fromReplaced.trans restored)⟩

end

section

variable (groups : DemandGroups K C)

private theorem get_foldl_insert (runs : List (DemandGroup K C))
    (path : Path) : (runs.foldl (fun rows group => rows.insert group) groups).get path =
      (runs.reverse.find? fun group => group.path = path).or (groups.get path) := by
  induction runs generalizing groups with
  | nil => rfl
  | cons group runs ih =>
    rw [List.foldl_cons, ih, Rows.get_insert, reverse_cons, find?_append, Option.or_assoc]
    congr 1
    by_cases same : path = group.path
    · rw [if_pos same, find?_cons_of_pos (by simpa only [decide_eq_true_eq] using same.symm),
        Option.some_or]
    · rw [if_neg same, find?_cons_of_neg (by
        simpa only [decide_eq_true_eq] using Ne.symm same), find?_nil, Option.none_or]

private theorem get_foldl_erase (paths : List Path) (path : Path) :
    (paths.foldl (fun rows path => rows.erase path) groups).get path =
      if path ∈ paths then none else groups.get path := by
  induction paths generalizing groups with
  | nil => rw [foldl_nil, if_neg not_mem_nil]
  | cons gone paths ih =>
    rw [List.foldl_cons, ih, Rows.get_erase]
    by_cases later : path ∈ paths
    · rw [if_pos later, if_pos (mem_cons_of_mem _ later)]
    · rw [if_neg later]
      by_cases first : path = gone
      · rw [if_pos first, if_pos (first ▸ mem_cons_self)]
      · rw [if_neg first, if_neg fun member => (mem_cons.mp member).elim first later]

private theorem DemandGroups.find_path (path : Path) :
    (groups.list.find? fun group => group.path = path) = groups.get path := by
  unfold Rows.get
  congr!

theorem DemandGroups.get_edited (runs : List (DemandGroup K C))
    (removed : List Path) (reset : Bool) (path : Path) :
    (groups.edited runs removed reset).get path = if path ∈ removed.map Path.clean then none
      else (runs.reverse.find? fun group => group.path = path).or
        (if reset then none else groups.get path) := by
  rw [DemandGroups.edited, get_foldl_erase, get_foldl_insert]
  cases reset <;> rfl

end

/-- For all groups in path order and all edits: the candidate and the published groups are the
edited ones, in path order, and a dropped transaction leaves the groups there were. -/
theorem transaction_edits_atomically (groups : DemandGroups K C) (runs : List (DemandGroup K C))
    (removed : List Path) (reset : Bool) :
    let transaction := beginRuns groups.list runs removed reset
    (transaction.groups.Pairwise fun first second => first.path < second.path) ∧
      (∀ path, (transaction.groups.find? fun group => decide (group.path = path)) =
        if path ∈ removed.map .clean then none
        else (runs.reverse.find? fun group => decide (group.path = path)).or
          (if reset then none
            else groups.list.find? fun group => decide (group.path = path))) ∧
      transaction.commit = transaction.groups ∧ transaction.rollback = groups.list := by
  obtain ⟨held, restored⟩ := beginRuns_spec groups runs removed reset
  refine ⟨?_, fun path => ?_, rfl, restored⟩
  · rw [held]
    exact (groups.edited runs removed reset).ordered
  · rw [held, DemandGroups.find_path, DemandGroups.find_path]
    exact groups.get_edited runs removed reset path

end SolidChecker.Producer
