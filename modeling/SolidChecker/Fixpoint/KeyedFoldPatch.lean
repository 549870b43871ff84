/- source: solid-reactive-ir/src/base/fixpoint/fold.rs -/

import SolidChecker.Fixpoint.KeyedFold

namespace SolidChecker.Fixpoint

open List Function

open Foundation.Table (foldl_at_keys lookup_insert_eq lookup_erase_eq mem_keys_iff)

section

variable {α : Type*}

theorem nonEmpty_eq_none {entries : List α} : nonEmpty entries = none ↔ entries = [] := by
  cases entries <;> simp [nonEmpty]

@[simp] theorem nonEmpty_nil : nonEmpty ([] : List α) = none := rfl

@[simp] theorem nonEmpty_getD (entries : List α) : (nonEmpty entries).getD [] = entries := by
  cases entries <;> simp [nonEmpty]

private theorem nonEmpty_inj {entries others : List α} (same : nonEmpty entries = nonEmpty others) :
    entries = others := by
  rw [← nonEmpty_getD entries, same, nonEmpty_getD]

@[simp] theorem bind_nonEmpty_getD (entries : Option (List α)) :
    entries.bind nonEmpty = nonEmpty (entries.getD []) := by
  cases entries <;> rfl

end

variable {K C : Type*}

private theorem foldl_rows {step : Patch K C → K → Patch K C}
    (keeps : ∀ patch key, (step patch key).rows = patch.rows) (keys : List K) (patch : Patch K C) :
    (keys.foldl step patch).rows = patch.rows := by
  induction keys generalizing patch with
  | nil => rfl
  | cons key keys ih => rw [foldl_cons, ih, keeps]

variable [LinearOrder K]

open KeyedFold (valuesUnder)

private theorem lookup_grouped (rows : List (K × C)) (key : K) :
    (grouped rows).lookup key = nonEmpty (valuesUnder rows key) := by
  induction rows using List.reverseRecOn with
  | nil => rfl
  | append_singleton rows row ih =>
    have split : valuesUnder (rows ++ [row]) key =
        valuesUnder rows key ++ if row.1 = key then [row.2] else [] := by
      simp only [valuesUnder, filter_append, map_append]
      split <;> simp_all
    have step : grouped (rows ++ [row]) = (grouped rows).insert row.1
        (((grouped rows).lookup row.1).getD [] ++ [row.2]) := by
      simp only [grouped, foldl_append, foldl_cons, foldl_nil]
    rw [step, lookup_insert_eq, split]
    by_cases same : key = row.1
    · rw [if_pos same, if_pos same.symm, ← same, ih, nonEmpty_getD]
      cases valuesUnder rows key <;> rfl
    · rw [if_neg same, if_neg (Ne.symm same), append_nil, ih]

private theorem lookup_grouped_nonEmpty (rows : List (K × C)) (key : K) :
    (((nonEmpty rows).map grouped).getD ∅).lookup key = nonEmpty (valuesUnder rows key) := by
  cases rows with
  | nil => rfl
  | cons row rows => exact lookup_grouped (row :: rows) key

namespace Patch

def posted (postings : Finmap fun _ : K => Finset FileId) (key : K) : Finset FileId :=
  (postings.lookup key).getD ∅

structure Describes (patch : Patch K C) (current : FileId → List (K × C)) : Prop where
  rows : ∀ file, patch.rows.lookup file = nonEmpty (current file)
  postings : ∀ key file, file ∈ posted patch.postings key ↔ valuesUnder (current file) key ≠ []

section

variable (patch : Patch K C) (file : FileId) (key : K)

private theorem posted_unpost (other : K) : posted (patch.unpost file key).postings other =
      if other = key then (posted patch.postings key).erase file
      else posted patch.postings other := by
  cases found : patch.postings.lookup key with
  | none =>
    by_cases same : other = key
    · subst same
      simp [unpost, posted, found]
    · simp [unpost, posted, found, same]
  | some files =>
    by_cases last : files.erase file = ∅
    · simp only [unpost, posted, found, last, if_true, lookup_erase_eq, Option.getD_some]
      split <;> rfl
    · simp only [unpost, posted, found, last, if_false, lookup_insert_eq, Option.getD_some]
      split <;> rfl

private theorem unpost_frame :
    (patch.unpost file key).rows = patch.rows ∧ (patch.unpost file key).delta = patch.delta := by
  unfold unpost
  split
  · exact ⟨rfl, rfl⟩
  · dsimp only
    split <;> exact ⟨rfl, rfl⟩

end

section

variable (file : FileId) (old : Finmap fun _ : K => List C) {keys : List K}
  (distinct : keys.Nodup) (patch : Patch K C)
include distinct

private theorem retire_loop [DecidableEq C] (new : Finmap fun _ : K => List C) :
    let after := keys.foldl (retire file old new) patch
    after.rows = patch.rows ∧
    (∀ key, posted after.postings key = if key ∈ keys then
      if new.lookup key = none then (posted patch.postings key).erase file
        else posted patch.postings key else posted patch.postings key) ∧
    ∀ key, (key ∈ after.delta) = if key ∈ keys then
      key ∈ patch.delta ∨ new.lookup key ≠ old.lookup key else key ∈ patch.delta := by
  refine ⟨foldl_rows (fun patch key => ?_) keys patch, ?_, ?_⟩
  · unfold retire
    split <;> split <;> simp [unpost_frame]
  · refine foldl_at_keys (fun patch key => posted patch.postings key) (fun key files =>
      if new.lookup key = none then files.erase file else files) (fun patch first key => ?_)
      distinct patch
    unfold retire
    split <;> split <;> split <;> simp_all [posted_unpost]
  · refine foldl_at_keys (fun patch key => key ∈ patch.delta) (fun key moved =>
      moved ∨ new.lookup key ≠ old.lookup key) (fun patch first key => ?_) distinct patch
    unfold retire
    split <;> split <;> split <;> simp_all [unpost_frame]

private theorem post_loop :
    let after := keys.foldl (post file old) patch
    after.rows = patch.rows ∧
    (∀ key, posted after.postings key = if key ∈ keys then
      if old.lookup key = none then insert file (posted patch.postings key)
        else posted patch.postings key else posted patch.postings key) ∧
    ∀ key, (key ∈ after.delta) = if key ∈ keys then
      key ∈ patch.delta ∨ old.lookup key = none else key ∈ patch.delta := by
  refine ⟨foldl_rows (fun patch key => ?_) keys patch, ?_, ?_⟩
  · unfold post
    split <;> rfl
  · refine foldl_at_keys (fun patch key => posted patch.postings key) (fun key files =>
      if old.lookup key = none then insert file files else files) (fun patch first key => ?_)
      distinct patch
    unfold post
    by_cases same : key = first
    · subst same
      split <;> simp_all [posted]
    · split <;> simp_all [posted]
  · refine foldl_at_keys (fun patch key => key ∈ patch.delta) (fun key moved =>
      moved ∨ old.lookup key = none) (fun patch first key => ?_) distinct patch
    unfold post
    split <;> split <;> simp_all

end

variable [DecidableEq C]
  {patch : Patch K C} {current : FileId → List (K × C)} (describes : patch.Describes current)
include describes

private theorem change_spec (file : FileId) (next : Option (List (K × C))) :
    (patch.change (file, next)).Describes (update current file (next.getD [])) ∧
    ∀ key, key ∈ (patch.change (file, next)).delta ↔ key ∈ patch.delta ∨
      valuesUnder (current file) key ≠ valuesUnder (next.getD []) key := by
  simp only [change, bind_nonEmpty_getD, describes.rows file]
  generalize next.getD [] = rows
  have old_values := lookup_grouped_nonEmpty (current file)
  have new_values := lookup_grouped_nonEmpty rows
  generalize ((nonEmpty (current file)).map grouped).getD ∅ = old at old_values ⊢
  generalize ((nonEmpty rows).map grouped).getD ∅ = new at new_values ⊢
  obtain ⟨retired_rows, retired, retired_delta⟩ := retire_loop file old
    (Finset.sort_nodup old.keys (· ≤ ·)) { patch with rows := patch.rows.erase file } new
  generalize (old.keys.sort (· ≤ ·)).foldl (retire file old new)
    { patch with rows := patch.rows.erase file } = middle at retired_rows retired retired_delta ⊢
  obtain ⟨posted_rows, posts, posted_delta⟩ := post_loop file old
    (Finset.sort_nodup new.keys (· ≤ ·)) middle
  generalize (new.keys.sort (· ≤ ·)).foldl (post file old) middle = after
    at posted_rows posts posted_delta ⊢
  simp only [Finset.mem_sort, mem_keys_iff, old_values, new_values, ne_eq, nonEmpty_eq_none]
    at retired retired_delta posts posted_delta
  have erased : ∀ other, after.rows.lookup other =
      if other = file then none else nonEmpty (current other) := by
    intro other
    rw [posted_rows, retired_rows, lookup_erase_eq, describes.rows other]
  have postings : ∀ key other, other ∈ posted after.postings key ↔
      valuesUnder (update current file rows other) key ≠ [] := by
    intro key other
    have before := describes.postings key other
    rw [posts, retired]
    by_cases here : other = file
    · subst here
      rw [update_self]
      grind
    · rw [update_of_ne here]
      grind
  have delta : ∀ key, key ∈ after.delta ↔
      key ∈ patch.delta ∨ valuesUnder (current file) key ≠ valuesUnder rows key := by
    intro key
    rw [posted_delta, retired_delta]
    have injective := @nonEmpty_inj _ (valuesUnder rows key) (valuesUnder (current file) key)
    grind
  cases rows with
  | nil =>
    refine ⟨⟨fun other => ?_, postings⟩, delta⟩
    simp only [nonEmpty_nil, erased]
    by_cases here : other = file
    · rw [if_pos here, here, update_self, nonEmpty_nil]
    · rw [if_neg here, update_of_ne here]
  | cons row rows =>
    refine ⟨⟨fun other => ?_, postings⟩, delta⟩
    simp only [nonEmpty, isEmpty_cons, Bool.false_eq_true, if_false, lookup_insert_eq, erased]
    by_cases here : other = file
    · rw [if_pos here, here, update_self]
      rfl
    · rw [if_neg here, if_neg here, update_of_ne here]

theorem changes_spec (next : FileId → Option (List (K × C))) (files : List FileId)
    (distinct : files.Nodup) :
    let after := files.foldl (fun patch file => patch.change (file, next file)) patch
    let rows := fun file => if file ∈ files then (next file).getD [] else current file
    after.Describes rows ∧
    ∀ key, key ∉ after.delta → key ∉ patch.delta ∧
      ∀ file, valuesUnder (rows file) key = valuesUnder (current file) key := by
  induction files generalizing patch current with
  | nil => exact ⟨describes, fun key outside => ⟨outside, fun _ => rfl⟩⟩
  | cons first files ih =>
    obtain ⟨fresh, distinct⟩ := nodup_cons.mp distinct
    obtain ⟨step, step_delta⟩ := change_spec describes first (next first)
    obtain ⟨run, run_delta⟩ := ih step distinct
    have rows : (fun file => if file ∈ first :: files then (next file).getD []
        else current file) = fun file => if file ∈ files then (next file).getD []
          else update current first ((next first).getD []) file := by
      funext file
      by_cases here : file = first
      · rw [here, if_pos mem_cons_self, if_neg fresh, update_self]
      · rw [update_of_ne here]
        simp only [mem_cons, here, false_or]
    refine ⟨rows ▸ run, fun key outside => ?_⟩
    obtain ⟨kept, same⟩ := run_delta key outside
    rw [step_delta, not_or, not_not] at kept
    refine ⟨kept.1, fun file => ?_⟩
    refine (congrArg (valuesUnder · key) (congrFun rows file)).trans ((same file).trans ?_)
    by_cases here : file = first
    · rw [here, update_self]
      exact kept.2.symm
    · rw [update_of_ne here]

end Patch

end SolidChecker.Fixpoint
