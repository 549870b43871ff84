/- source: solid-reactive-ir/src/base/fixpoint/fold.rs -/

import SolidChecker.Fixpoint.KeyedFoldRefold

namespace SolidChecker.Fixpoint.KeyedFold

open List

open Foundation.Grouping (sortByKey sortByKey_perm sortByKey_sorted eq_of_strict runs
  mem_keyed_runs keyed_runs_strict)
open Foundation.Table (collect foldl_at_keys lookup_collect mem_of_lookup_collect mem_keys_iff)
open Patch (posted)

variable {K C V : Type*}

def rowsAfter (calls : List (Call K C)) : FileId → List (K × C) :=
  calls.foldl (fun current call => call.rowsAfter current) fun _ => []

def Settled (calls : List (Call K C)) : Prop :=
  ∀ past call, past ++ [call] <+: calls → call.Settles (rowsAfter past)

private theorem settled_of_wellFormed {calls : List (Call K C)}
    (formed : ∀ call ∈ calls, call.WellFormed) : Settled calls :=
  fun _ call made => (formed call (made.subset (by simp))).settles _

private theorem wellFormed_of_listed {call : Call K C} (distinct : call.order.ids.Nodup)
    (listed : ∀ file ∈ call.changes.map Prod.fst, file ∈ call.order.ids) : call.WellFormed :=
  ⟨distinct, fun file _ found _ => listed file (mem_map_of_mem (mem_of_lookup_collect found))⟩

section

variable {order : FileOrder}

private theorem mem_rowsOf {rows : Finmap fun _ => List (K × C)}
    {file : FileId} {row : Row K C} (member : row ∈ rowsOf order rows file) :
    row.rank = order.rank file ∧ row.file = file := by
  obtain ⟨entry, -, rfl⟩ := mem_map.mp member
  exact ⟨rfl, rfl⟩

private theorem rowsOf_positions (order : FileOrder)
    (rows : Finmap fun _ => List (K × C)) (file : FileId) :
    (rowsOf order rows file).Pairwise fun a b => a.position < b.position := by
  rw [rowsOf, pairwise_map, pairwise_iff_getElem]
  intro i j i_bound j_bound below
  simpa using below

private theorem filterMap_keyedRun {β : Type*} (give : K → List (Row K C) → Option β)
    (groups : List (List (Row K C))) :
    groups.filterMap (keyedRun give) = (groups.filterMap fun group => group.head?.map fun row =>
      (row.key, group)).filterMap fun keyed => (give keyed.1 keyed.2).map fun value =>
        (keyed.1, value) := by
  rw [filterMap_filterMap]
  congr 1
  funext group
  cases group <;> rfl

private theorem lookup_install (changes : Finmap fun _ => Option (List (K × C)))
    (file : FileId) : (install ∅ changes).lookup file =
      nonEmpty (((changes.lookup file).getD none).getD []) := by
  refine (foldl_at_keys (fun rows file => Finmap.lookup file rows) (fun file old =>
    (nonEmpty (((changes.lookup file).getD none).getD [])).or old) (fun rows first file => ?_)
    (Finset.sort_nodup _ (· ≤ ·)) ∅ file).trans ?_
  · rw [bind_nonEmpty_getD]
    by_cases same : file = first
    · subst same
      cases nonEmpty (((changes.lookup file).getD none).getD []) <;> simp
    · cases nonEmpty (((changes.lookup first).getD none).getD []) <;> simp [same]
  · simp only [Finset.mem_sort, mem_keys_iff, Finmap.lookup_empty, Option.or_none]
    cases changes.lookup file <;> simp

variable [LinearOrder K]

def rowsAt (order : FileOrder) (rows : Finmap fun _ : FileId => List (K × C)) (key : K) :
    List (Row K C) :=
  order.ids.flatMap fun file =>
    (rowsOf order rows file).filter fun row => decide (row.key = key)

private theorem rowsAt_strict (distinct : order.ids.Nodup)
    (rows : Finmap fun _ => List (K × C)) (key : K) :
    (rowsAt order rows key).Pairwise fun a b => a.sortKey < b.sortKey := by
  refine pairwise_flatMap.mpr ⟨fun file _ => ?_, ?_⟩
  · refine .imp_of_mem ?_ ((rowsOf_positions order rows file).filter _)
    intro a b in_a in_b below
    rw [mem_filter, decide_eq_true_eq] at in_a in_b
    simp only [Row.sortKey, Prod.Lex.toLex_lt_toLex, in_a.2, in_b.2, (mem_rowsOf in_a.1).1,
      (mem_rowsOf in_b.1).1, (mem_rowsOf in_a.1).2, (mem_rowsOf in_b.1).2, below, true_and,
      or_true]
  · refine (FileOrder.ids_strict distinct).imp fun below a in_a b in_b => ?_
    rw [mem_filter, decide_eq_true_eq] at in_a in_b
    simp only [Row.sortKey, Prod.Lex.toLex_lt_toLex, in_a.2, in_b.2, (mem_rowsOf in_a.1).1,
      (mem_rowsOf in_b.1).1, below, true_and, true_or, or_true]

variable {order : FileOrder} {rows : Finmap fun _ : FileId => List (K × C)}
  {current : FileId → List (K × C)} (distinct : order.ids.Nodup)
  (held : ∀ file, rows.lookup file = nonEmpty (current file)) (listed : Listed order.ids current)

include distinct held listed in
private theorem sorted_filter (key : K) :
    (sortByKey Row.sortKey ((rows.keys.sort (· ≤ ·)).flatMap (rowsOf order rows))).filter
      (fun row => row.key = key) = rowsAt order rows key := by
  have files : (rows.keys.sort (· ≤ ·)).Perm (order.ids.filter fun file => current file ≠ []) := by
    refine (perm_ext_iff_of_nodup (Finset.sort_nodup _ _) (distinct.filter _)).mpr ?_
    intro file
    rw [Finset.mem_sort, mem_keys_iff, held, ne_eq, nonEmpty_eq_none, mem_filter, decide_eq_true_eq]
    exact ⟨fun some_rows => ⟨listed file some_rows, some_rows⟩, And.right⟩
  have perm : ((rows.keys.sort (· ≤ ·)).flatMap (rowsOf order rows)).Perm
      (order.ids.flatMap (rowsOf order rows)) := by
    refine (files.flatMap_right _).trans (.of_eq ?_)
    refine flatMap_filter_nonEmpty _ _ _ fun file _ dropped => ?_
    have empty : current file = [] := by simpa using dropped
    rw [rowsOf, held, empty]
    rfl
  have at_key : (order.ids.flatMap (rowsOf order rows)).filter
      (fun row => row.key = key) = rowsAt order rows key := filter_flatMap
  refine eq_of_strict ?_ ((sortByKey_sorted Row.sortKey _).filter _)
    (rowsAt_strict distinct rows key)
  rw [← at_key]
  exact ((sortByKey_perm Row.sortKey _).trans perm).filter _

include held in
private theorem rowsAt_values (key : K) : (rowsAt order rows key).map Row.value = valuesAt order.ids current key := by
  rw [rowsAt, map_flatMap, valuesAt]
  congr 1
  funext file
  rw [rowsOf, held, nonEmpty_getD, filter_map, map_map, valuesUnder]
  conv_rhs => rw [← zipIdx_map_fst 0 (current file), filter_map, map_map]
  rfl

include held in
private theorem rowsAt_eq_nil (key : K) : rowsAt order rows key = [] ↔ valuesAt order.ids current key = [] := by
  rw [← rowsAt_values held, map_eq_nil_iff]

def groupsOf (order : FileOrder) (rows : Finmap fun _ : FileId => List (K × C)) :
    List (List (Row K C)) :=
  runs Row.key (sortByKey Row.sortKey ((rows.keys.sort (· ≤ ·)).flatMap (rowsOf order rows)))

private theorem keys_sorted (all : List (Row K C)) :
    (sortByKey Row.sortKey all).Pairwise fun a b => a.key ≤ b.key := by
  refine (sortByKey_sorted Row.sortKey all).imp fun {a b} below => ?_
  rcases Prod.Lex.toLex_le_toLex.mp below with strict | ⟨equal, -⟩
  · exact le_of_lt strict
  · exact le_of_eq equal

section

variable {β : Type*} (give : K → List (Row K C) → Option β)

private theorem keyedRuns_nodup (order : FileOrder) (rows : Finmap fun _ => List (K × C)) :
    (((groupsOf order rows).filterMap (keyedRun give)).map Prod.fst).Nodup := by
  rw [filterMap_keyedRun]
  refine pairwise_map.mpr (pairwise_filterMap.mpr ?_)
  refine (keyed_runs_strict Row.key (keys_sorted _)).imp fun {first second} below => ?_
  intro entry from_first other from_second
  obtain ⟨_, -, rfl⟩ := Option.map_eq_some_iff.mp from_first
  obtain ⟨_, -, rfl⟩ := Option.map_eq_some_iff.mp from_second
  exact ne_of_lt below

include distinct held listed in
private theorem lookup_keyedRuns (key : K) :
    (collect ((groupsOf order rows).filterMap (keyedRun give))).lookup key =
      if rowsAt order rows key = [] then none else give key (rowsAt order rows key) := by
  refine Option.ext fun entry => ?_
  have runs := mem_keyed_runs Row.key (keys_sorted
    ((rows.keys.sort (· ≤ ·)).flatMap (rowsOf order rows)))
  simp only [sorted_filter distinct held listed] at runs
  rw [lookup_collect (keyedRuns_nodup give order rows), filterMap_keyedRun, mem_filterMap]
  constructor
  · rintro ⟨keyed, member, given⟩
    obtain ⟨value, folded, ⟨⟩⟩ := Option.map_eq_some_iff.mp given
    obtain ⟨filled, whole⟩ := (runs keyed).mp member
    rw [whole] at filled folded
    rw [if_neg filled, folded]
  · intro given
    obtain ⟨filled, folded⟩ := Option.ite_none_left_eq_some.mp given
    exact ⟨(key, rowsAt order rows key), (runs (key, _)).mpr ⟨filled, rfl⟩, by simp [folded]⟩

end

include held listed in
private theorem mem_files_rowsAt (key : K) (file : FileId) :
    file ∈ (rowsAt order rows key).map Row.file ↔ valuesUnder (current file) key ≠ [] := by
  have of_file : ∀ other, ((rowsOf order rows other).filter fun row =>
      row.key = key) = [] ↔ valuesUnder (current other) key = [] := by
    intro other
    simp only [rowsOf, held, nonEmpty_getD, valuesUnder, filter_map, map_eq_nil_iff,
      filter_eq_nil_iff]
    constructor
    · intro none_there row member
      obtain ⟨position, found⟩ := mem_iff_getElem?.mp member
      exact none_there (row, position) (mem_zipIdx_iff_getElem?.mpr found)
    · exact fun none_there entry member => none_there entry.1 (fst_mem_of_mem_zipIdx member)
  constructor
  · intro member
    obtain ⟨row, in_rows, rfl⟩ := mem_map.mp member
    obtain ⟨other, -, in_file⟩ := mem_flatMap.mp in_rows
    rw [(mem_rowsOf (mem_filter.mp in_file).1).2, ne_eq, ← of_file]
    exact ne_nil_of_mem in_file
  · intro some_values
    obtain ⟨row, member⟩ := exists_mem_of_ne_nil _ (mt (of_file file).mp some_values)
    have in_ids := listed file fun empty => some_values (by rw [empty]; rfl)
    exact mem_map.mpr ⟨row, mem_flatMap.mpr ⟨file, in_ids, member⟩,
      (mem_rowsOf (mem_filter.mp member).1).2⟩

end

variable [LinearOrder K] [DecidableEq C] [DecidableEq V]

section

variable {fold : K → List C → Option V} {self : KeyedFold K C V} {current : FileId → List (K × C)}
  (exact_before : Exact fold self current) {call : Call K C} (settles : call.Settles current)
include exact_before settles

private theorem update_bulk
    (nothing : self.rows.keys = ∅ ∧ self.postings.keys = ∅ ∧ self.values.keys = ∅) :
    Updates current call fold self := by
  have listed := rowsAfter_listed call current
  have no_rows : ∀ file, self.rows.lookup file = none := by
    intro file
    by_contra present
    exact Finset.notMem_empty file (nothing.1 ▸ (mem_keys_iff _ _).mpr present)
  have no_values : ∀ key, self.values.lookup key = none := by
    intro key
    by_contra present
    exact Finset.notMem_empty key (nothing.2.2 ▸ (mem_keys_iff _ _).mpr present)
  have rows_empty : self.rows = ∅ := Finmap.ext_lookup fun file => by
    rw [no_rows, Finmap.lookup_empty]
  have held : ∀ file, (install self.rows (collect call.changes)).lookup file =
      nonEmpty (call.rowsAfter current file) := by
    intro file
    have gone : current file = [] := by
      rw [← nonEmpty_eq_none, ← exact_before.describes.rows, no_rows]
    rw [rows_empty, lookup_install, Call.rowsAfter]
    by_cases here : file ∈ call.order.ids
    · rw [if_pos here, gone]
      cases (collect call.changes).lookup file <;> rfl
    · rw [if_neg here, unlisted_change settles here gone]
  simp only [Updates, update, if_pos nothing, foldAll]
  generalize install self.rows (collect call.changes) = rows at held ⊢
  have values : ∀ key, (collect ((groupsOf call.order rows).filterMap (foldRun fold))).lookup key =
      expected fold call.order.ids (call.rowsAfter current) key := by
    intro key
    rw [foldRun, lookup_keyedRuns settles.distinct held listed, expected]
    simp only [rowsAt_eq_nil held, rowsAt_values held]
  have postings : ∀ key file, file ∈ posted (collect ((groupsOf call.order rows).filterMap
      postRun)) key ↔ valuesUnder (call.rowsAfter current file) key ≠ [] := by
    intro key file
    rw [posted, postRun, lookup_keyedRuns settles.distinct held listed,
      ← mem_files_rowsAt held listed]
    by_cases empty : rowsAt call.order rows key = []
    · simp [empty]
    · simp [empty]
  refine ⟨⟨⟨held, postings⟩, settles.distinct, listed, values⟩,
    keyedRuns_nodup _ call.order rows, fun key => ?_⟩
  rw [no_values key, ne_comm, Option.ne_none_iff_exists']
  simp only [mem_map, Prod.exists, exists_and_right, exists_eq_right]
  refine exists_congr fun value => ?_
  exact (lookup_collect (keyedRuns_nodup _ call.order rows) key value).symm

private theorem update_spec : Updates current call fold self := by
  by_cases nothing : self.rows.keys = ∅ ∧ self.postings.keys = ∅ ∧ self.values.keys = ∅
  · exact update_bulk exact_before settles nothing
  · exact update_patched exact_before settles nothing

end

private theorem run_spec (fold : K → List C → Option V) (calls : List (Call K C))
    (settled : Settled calls) : Exact fold (run fold calls) (rowsAfter calls) := by
  induction calls using List.reverseRecOn with
  | nil =>
    refine ⟨⟨fun file => rfl, fun key file => ?_⟩, nodup_nil, fun file some_rows => ?_,
      fun key => rfl⟩
    · simp [run, empty, posted, rowsAfter, valuesUnder]
    · exact absurd rfl some_rows
  | append_singleton calls call ih =>
    have before := ih fun past other made => settled past other (made.trans (prefix_append _ _))
    have step := (update_spec before (settled calls call prefix_rfl)).1
    simpa only [run, rowsAfter, foldl_append, foldl_cons, foldl_nil] using step

private theorem update_ids (self : KeyedFold K C V) (order : FileOrder)
    (changes : List (FileChange K C)) (fold : K → List C → Option V) :
    (self.update order changes fold).1.ids = order.ids := by
  unfold update
  dsimp only
  split <;> rfl

private theorem update_values (fold : K → List C → Option V) (history : List (Call K C))
    (call : Call K C) (settled : Settled (history ++ [call])) (key : K) :
    ((run fold history).update call.order call.changes fold).1.values.lookup key =
      expected fold call.order.ids (rowsAfter (history ++ [call])) key := by
  have after := (run_spec fold (history ++ [call]) settled).values key
  simp only [run, foldl_append, foldl_cons, foldl_nil] at after
  rwa [update_ids] at after

/-- After every update of every run, a key has a value exactly if it has rows and their fold in
path order is one, and the update reports, each once, exactly the keys whose optional value it
moved. -/
theorem update_folds (fold : K → List C → Option V) (history : List (Call K C)) (call : Call K C)
    (formed : ∀ made ∈ history ++ [call], made.WellFormed) :
    let before := run fold history
    let updated := before.update call.order call.changes fold
    let values := valuesAt call.order.ids (rowsAfter (history ++ [call]))
    (∀ key, updated.1.values.lookup key =
      if values key = [] then none else fold key (values key)) ∧
    updated.2.changed.Nodup ∧
    ∀ key, key ∈ updated.2.changed ↔ before.values.lookup key ≠ updated.1.values.lookup key := by
  have settled := settled_of_wellFormed formed
  have before := run_spec fold history fun past made earlier =>
    settled past made (earlier.trans (prefix_append _ _))
  obtain ⟨-, report⟩ := update_spec before (settled history call prefix_rfl)
  exact ⟨update_values fold history call settled, report⟩

/-- Two files that join out of id order, then a third between them. -/
theorem update_folds_joined :
    let fold := fun (_ : ℕ) (values : List ℕ) => values.head?
    let history : List (Call ℕ ℕ) := [⟨⟨[1, 0]⟩, [(0, some [(5, 7)]), (1, some [(5, 8)])]⟩]
    let call : Call ℕ ℕ := ⟨⟨[2, 1, 0]⟩, [(2, some [(5, 9)]), (1, none)]⟩
    let updated := (run fold history).update call.order call.changes fold
    let values := valuesAt call.order.ids (rowsAfter (history ++ [call]))
    (∀ key, updated.1.values.lookup key =
      if values key = [] then none else fold key (values key)) ∧
    updated.2.changed.Nodup ∧
    ∀ key, key ∈ updated.2.changed ↔
      (run fold history).values.lookup key ≠ updated.1.values.lookup key := by
  refine update_folds _ _ _ fun made member => ?_
  rcases mem_append.mp member with first | second
  · rw [mem_singleton.mp first]
    exact wellFormed_of_listed (by decide) (by decide)
  · rw [mem_singleton.mp second]
    exact wellFormed_of_listed (by decide) (by decide)

/-- A key without rows has no value, even where the fold of no values is one: a count. -/
theorem update_skips_empty :
    ¬∀ (fold : ℕ → List ℕ → Option ℕ) (history : List (Call ℕ ℕ)) (call : Call ℕ ℕ),
      (∀ made ∈ history ++ [call], made.WellFormed) → ∀ key,
      ((run fold history).update call.order call.changes fold).1.values.lookup key =
        fold key (valuesAt call.order.ids (rowsAfter (history ++ [call])) key) := by
  intro folds
  let call : Call ℕ ℕ := ⟨⟨[]⟩, []⟩
  have formed : call.WellFormed := wellFormed_of_listed (by decide) (by decide)
  have counted := folds (fun _ values => some values.length) [] call
    (fun made member => mem_singleton.mp member ▸ formed) 0
  have settled : Settled [call] :=
    settled_of_wellFormed fun made member => mem_singleton.mp member ▸ formed
  rw [update_values _ [] call settled] at counted
  exact nomatch counted

/-- Only the listed files' rows reach a value, whatever the changes say of the others, as long
as a change that carries rows is for a file that is listed or had rows. -/
theorem update_ignores_unlisted (fold : K → List C → Option V) (history : List (Call K C))
    (call : Call K C) (settled : Settled (history ++ [call])) (key : K) :
    let values := valuesAt call.order.ids (rowsAfter (history ++ [call])) key
    ((run fold history).update call.order call.changes fold).1.values.lookup key =
      if values = [] then none else fold key values :=
  update_values fold history call settled key

/-- A change carries rows for a held file that the order has dropped. -/
theorem update_ignores_dropped :
    let fold := fun (_ : ℕ) (values : List ℕ) => values.head?
    let history : List (Call ℕ ℕ) := [⟨⟨[1, 0]⟩, [(0, some [(5, 7)]), (1, some [(5, 8)])]⟩]
    let call : Call ℕ ℕ := ⟨⟨[0]⟩, [(1, some [(5, 9)])]⟩
    let values := valuesAt call.order.ids (rowsAfter (history ++ [call])) 5
    ((run fold history).update call.order call.changes fold).1.values.lookup 5 =
      if values = [] then none else fold 5 values := by
  intro fold history call
  have formed : ∀ made ∈ history, made.WellFormed := fun made member =>
    mem_singleton.mp member ▸ wellFormed_of_listed (by decide) (by decide)
  have dropped : call.Settles (rowsAfter history) := by
    refine ⟨by decide, fun file rows found _ => .inr ?_⟩
    have named : file = 1 := congrArg Prod.fst (mem_singleton.mp (mem_of_lookup_collect found))
    rw [named]
    decide
  refine update_ignores_unlisted fold history call (fun past made earlier => ?_) 5
  rcases prefix_concat_iff.mp earlier with whole | first
  · obtain ⟨rfl, last⟩ := append_inj' whole rfl
    exact singleton_inj.mp last ▸ dropped
  · exact settled_of_wellFormed formed past made first

/-- Rows for a file that is neither listed nor held reach the values. -/
theorem update_folds_unlisted :
    ¬∀ (fold : ℕ → List ℕ → Option ℕ) (history : List (Call ℕ ℕ)) (call : Call ℕ ℕ),
      (∀ made ∈ history ++ [call], made.order.ids.Nodup) → ∀ key,
      let values := valuesAt call.order.ids (rowsAfter (history ++ [call])) key
      ((run fold history).update call.order call.changes fold).1.values.lookup key =
        if values = [] then none else fold key values := by
  intro ignores
  have unlisted := ignores (fun _ values => values.head?) []
    ⟨⟨[]⟩, [(1, some [(5, 8)])]⟩ (by decide) 5
  have file : ∀ {V : Type} (rows : V), Finset.sort (collect [((1 : FileId), rows)]).keys
      (· ≤ ·) = [1] := fun _ => Finset.sort_singleton _ _
  have installed : install ∅ (collect [((1 : FileId), some [((5 : ℕ), (8 : ℕ))])]) =
      collect [(1, [(5, 8)])] := by
    rw [install, file]
    rfl
  have sorted : ∀ row : Row ℕ ℕ, sortByKey Row.sortKey [row] = [row] := mergeSort_singleton
  have rows : rowsOf ⟨[]⟩ (collect [(1, [(5, 8)])]) 1 = [(⟨5, none, 1, 0, 8⟩ : Row ℕ ℕ)] := rfl
  simp only [nil_append, run, foldl_nil, empty, update, foldAll, installed, file, flatMap_cons,
    flatMap_nil, append_nil, rows, sorted] at unlisted
  rw [if_pos ⟨rfl, rfl, rfl⟩] at unlisted
  cases unlisted

end SolidChecker.Fixpoint.KeyedFold
