/- source: solid-reactive-ir/src/base/fixpoint/fold.rs -/

import SolidChecker.Fixpoint.KeyedFoldPatch

namespace SolidChecker.Fixpoint

open List Finset

open Foundation.Grouping (sortByKey_perm sortByKey_sorted eq_of_strict)
open Foundation.Table (collect foldl_at_keys lookup_collect lookup_insert_eq lookup_erase_eq
  mem_keys_iff)
open Patch (posted)

namespace FileOrder

variable {order : FileOrder}

private theorem rank_eq_some (distinct : order.ids.Nodup) (id : FileId) (position : ℕ) :
    order.rank id = some position ↔ order.ids[position]? = some id := by
  have keys : (order.ids.zipIdx.map Prod.fst).Nodup := by
    rw [zipIdx_map_fst]
    exact distinct
  rw [rank, ranks, lookup_collect keys, mem_zipIdx_iff_getElem?]

private theorem rank_isSome (distinct : order.ids.Nodup) (id : FileId) :
    (order.rank id).isSome ↔ id ∈ order.ids := by
  rw [Option.isSome_iff_exists, mem_iff_getElem?]
  exact exists_congr fun position => rank_eq_some distinct id position

theorem ids_strict (distinct : order.ids.Nodup) :
    order.ids.Pairwise fun a b => rankOrder (order.rank a) < rankOrder (order.rank b) := by
  rw [pairwise_iff_getElem]
  intro i j i_bound j_bound below
  rw [(rank_eq_some distinct _ i).mpr (getElem?_eq_getElem i_bound),
    (rank_eq_some distinct _ j).mpr (getElem?_eq_getElem j_bound)]
  exact WithBot.coe_lt_coe.mpr below

end FileOrder

namespace KeyedFold

variable {K C V : Type*}

def Listed (ids : List FileId) (current : FileId → List (K × C)) : Prop :=
  ∀ file, current file ≠ [] → file ∈ ids

/-- The files' current rows after a call: the last change of each listed file counts, and a
file the order does not list is gone. -/
def Call.rowsAfter (call : Call K C) (current : FileId → List (K × C)) (file : FileId) :
    List (K × C) :=
  if file ∈ call.order.ids then
    match (collect call.changes).lookup file with
    | some rows => rows.getD []
    | none => current file
  else []

structure Call.WellFormed (call : Call K C) : Prop where
  distinct : call.order.ids.Nodup
  carried : ∀ file rows, (collect call.changes).lookup file = some (some rows) → rows ≠ [] →
    file ∈ call.order.ids

/-- The order lists distinct files, and a file whose change carries rows is listed or had rows
before. -/
structure Call.Settles (call : Call K C) (current : FileId → List (K × C)) : Prop where
  distinct : call.order.ids.Nodup
  carried : ∀ file rows, (collect call.changes).lookup file = some (some rows) → rows ≠ [] →
    file ∈ call.order.ids ∨ current file ≠ []

variable {current : FileId → List (K × C)} {call : Call K C}

theorem Call.WellFormed.settles (formed : call.WellFormed) (current : FileId → List (K × C)) :
    call.Settles current :=
  ⟨formed.distinct, fun file rows found some_rows => .inl (formed.carried file rows found some_rows)⟩

theorem rowsAfter_listed (call : Call K C) (current : FileId → List (K × C)) :
    Listed call.order.ids (call.rowsAfter current) := by
  intro file some_rows
  by_contra unlisted
  exact some_rows (if_neg unlisted)

theorem unlisted_change (settles : call.Settles current) {file : FileId}
    (unlisted : file ∉ call.order.ids) (unheld : current file = []) :
    (((collect call.changes).lookup file).getD none).getD [] = [] := by
  cases found : (collect call.changes).lookup file with
  | none => rfl
  | some change =>
    cases change with
    | none => rfl
    | some rows =>
      by_contra some_rows
      rcases settles.carried file rows found some_rows with listed | held
      · exact unlisted listed
      · exact held unheld

private theorem lookup_dropUnlisted (order : FileOrder)
    (rows : Finmap fun _ : FileId => List (K × C))
    (changes : Finmap fun _ : FileId => Option (List (K × C))) (file : FileId) :
    (dropUnlisted order rows changes).lookup file =
      if file ∈ rows.keys ∧ order.rank file = none then some none else changes.lookup file := by
  refine (foldl_at_keys (fun changes file => Finmap.lookup file changes) (fun file old =>
    if order.rank file = none then some none else old) (fun changes first file => ?_)
    (sort_nodup _ (· ≤ ·)) changes file).trans ?_
  · by_cases same : file = first <;> split <;> simp_all [lookup_insert_eq]
  · simp only [mem_sort]
    grind

variable [LinearOrder K]

def valuesAt (ids : List FileId) (current : FileId → List (K × C)) (key : K) : List C :=
  ids.flatMap fun file => valuesUnder (current file) key

def expected (fold : K → List C → Option V) (ids : List FileId)
    (current : FileId → List (K × C)) (key : K) : Option V :=
  if valuesAt ids current key = [] then none else fold key (valuesAt ids current key)

private theorem valuesUnder_nil (key : K) : valuesUnder ([] : List (K × C)) key = [] := rfl

theorem flatMap_filter_nonEmpty {α β : Type*} (files : List α) (values : α → List β)
    (keep : α → Bool) (dropped : ∀ file ∈ files, keep file = false → values file = []) :
    (files.filter keep).flatMap values = files.flatMap values := by
  induction files with
  | nil => rfl
  | cons file files ih =>
    have rest := ih fun other member => dropped other (mem_cons_of_mem _ member)
    cases kept : keep file with
    | true => rw [filter_cons_of_pos kept, flatMap_cons, flatMap_cons, rest]
    | false =>
      rw [filter_cons_of_neg (by simp [kept]), flatMap_cons, rest,
        dropped file mem_cons_self kept, nil_append]

private theorem valuesOf_eq {order : FileOrder} (distinct : order.ids.Nodup)
    {rows : Finmap fun _ : FileId => List (K × C)} {postings : Finmap fun _ : K => Finset FileId}
    {delta : Finset K} (describes : Patch.Describes ⟨rows, postings, delta⟩ current)
    (listed : Listed order.ids current) (key : K) :
    valuesOf order rows postings key = valuesAt order.ids current key := by
  have files : ((postings.lookup key).map fun files => files.sort (· ≤ ·)).getD [] =
      (posted postings key).sort (· ≤ ·) := by
    unfold posted
    cases postings.lookup key with
    | none => exact (sort_empty _).symm
    | some files => rfl
  have posted_iff := describes.postings key
  let with_values := order.ids.filter fun file => valuesUnder (current file) key ≠ []
  have perm : ((posted postings key).sort (· ≤ ·)).Perm with_values := by
    refine (perm_ext_iff_of_nodup (sort_nodup _ _) (distinct.filter _)).mpr ?_
    intro file
    rw [mem_sort, posted_iff, mem_filter, decide_eq_true_eq]
    refine ⟨fun some_values => ⟨listed file fun empty => some_values ?_, some_values⟩, And.right⟩
    rw [empty, valuesUnder_nil]
  have sorted := eq_of_strict ((sortByKey_perm _ _).trans perm)
    (sortByKey_sorted (fun file => FileOrder.rankOrder (order.rank file)) _)
    ((FileOrder.ids_strict distinct).filter _)
  have read : ∀ file, valuesUnder ((rows.lookup file).getD []) key =
      valuesUnder (current file) key := by
    intro file
    rw [describes.rows file, nonEmpty_getD]
  simp only [valuesOf, files, sorted, read]
  refine flatMap_filter_nonEmpty _ _ _ fun file _ dropped => ?_
  simpa using dropped

private theorem valuesAt_reordered {order previous : FileOrder} (distinct : order.ids.Nodup)
    (distinct_before : previous.ids.Nodup) (kept : order.keepsRelativeOrder previous)
    {before after : FileId → List (K × C)} (listed_before : Listed previous.ids before)
    (listed : Listed order.ids after) {key : K}
    (same : ∀ file, valuesUnder (after file) key = valuesUnder (before file) key) :
    valuesAt order.ids after key = valuesAt previous.ids before key := by
  have survivors : order.surviving previous = previous.surviving order := of_decide_eq_true kept
  have here : ∀ file, (previous.rank file).isSome = false → valuesUnder (after file) key = [] := by
    intro file unlisted
    have gone : before file = [] := by
      by_contra some_rows
      have member := listed_before file some_rows
      rw [← FileOrder.rank_isSome distinct_before] at member
      exact absurd member (by simp [unlisted])
    rw [same, gone, valuesUnder_nil]
  have there : ∀ file, (order.rank file).isSome = false → valuesUnder (after file) key = [] := by
    intro file unlisted
    have gone : after file = [] := by
      by_contra some_rows
      have member := listed file some_rows
      rw [← FileOrder.rank_isSome distinct] at member
      exact absurd member (by simp [unlisted])
    rw [gone, valuesUnder_nil]
  calc valuesAt order.ids after key
      = (order.surviving previous).flatMap fun file => valuesUnder (after file) key :=
        (flatMap_filter_nonEmpty _ _ _ fun file _ => here file).symm
    _ = (previous.surviving order).flatMap fun file => valuesUnder (after file) key := by
        rw [survivors]
    _ = previous.ids.flatMap fun file => valuesUnder (after file) key :=
        flatMap_filter_nonEmpty _ _ _ fun file _ => there file
    _ = valuesAt previous.ids before key := by simp only [valuesAt, same]

private theorem refold_loop [DecidableEq V] (next : K → Option V) (keys : List K) (distinct : keys.Nodup)
    (values : Finmap fun _ : K => V) (changed : List K) :
    let after := keys.foldl (refold next) (values, changed)
    (∀ key, after.1.lookup key = if key ∈ keys then next key else values.lookup key) ∧
    after.2 = changed ++ keys.filter fun key => values.lookup key ≠ next key := by
  have step : ∀ state first key,
      (refold next state first).1.lookup key =
        if key = first then next first else state.1.lookup key := by
    intro state first key
    unfold refold
    cases next first with
    | some value => exact lookup_insert_eq state.1 first key value
    | none => exact lookup_erase_eq state.1 first key
  refine ⟨foldl_at_keys (fun state key => state.1.lookup key) (fun key _ => next key) step distinct
    (values, changed), ?_⟩
  induction keys generalizing values changed with
  | nil => simp
  | cons first keys ih =>
    obtain ⟨fresh, distinct⟩ := nodup_cons.mp distinct
    have step_changed : (refold next (values, changed) first).2 =
        changed ++ if values.lookup first ≠ next first then [first] else [] := by
      unfold refold
      cases found : next first with
      | some value => by_cases same : values.lookup first = some value <;> simp [same]
      | none => cases values.lookup first <;> simp
    have later : keys.filter (fun key =>
        (refold next (values, changed) first).1.lookup key ≠ next key) =
        keys.filter fun key => values.lookup key ≠ next key := by
      refine filter_congr fun key member => ?_
      have apart : key ≠ first := fun same => fresh (same ▸ member)
      rw [step, if_neg apart]
    rw [foldl_cons, ih distinct, step_changed, append_assoc, later]
    by_cases differs : values.lookup first = next first <;> simp [differs]

variable [DecidableEq C]

/-- What the kept fold is: its rows and postings are those of the current rows, every file with
rows is listed, and each key has its expected value. -/
structure Exact (fold : K → List C → Option V) (state : KeyedFold K C V)
    (current : FileId → List (K × C)) : Prop where
  describes : Patch.Describes ⟨state.rows, state.postings, ∅⟩ current
  distinct : state.ids.Nodup
  listed : Listed state.ids current
  values : ∀ key, state.values.lookup key = expected fold state.ids current key

variable [DecidableEq V] {fold : K → List C → Option V} {self : KeyedFold K C V}

variable (fold self current call) in
def Updates : Prop :=
  let updated := self.update call.order call.changes fold
  Exact fold updated.1 (call.rowsAfter current) ∧ updated.2.changed.Nodup ∧
    ∀ key, key ∈ updated.2.changed ↔ self.values.lookup key ≠ updated.1.values.lookup key

variable (exact_before : Exact fold self current) (settles : call.Settles current)
include exact_before settles

omit [DecidableEq V] in
private theorem patchFiles_spec :
    let patch := self.patchFiles (dropUnlisted call.order self.rows (collect call.changes))
    patch.Describes (call.rowsAfter current) ∧
    ∀ key, key ∉ patch.delta → ∀ file,
      valuesUnder (call.rowsAfter current file) key = valuesUnder (current file) key := by
  let changes := dropUnlisted call.order self.rows (collect call.changes)
  obtain ⟨describes, delta⟩ := Patch.changes_spec
    exact_before.describes (fun file => (changes.lookup file).getD none)
    (changes.keys.sort (· ≤ ·)) (sort_nodup _ _)
  have rows : (fun file => if file ∈ changes.keys.sort (· ≤ ·) then
      ((changes.lookup file).getD none).getD [] else current file) = call.rowsAfter current := by
    funext file
    have held : file ∈ self.rows.keys ↔ current file ≠ [] := by
      rw [mem_keys_iff, exact_before.describes.rows file, ne_eq, nonEmpty_eq_none]
    have rank := FileOrder.rank_isSome settles.distinct file
    have change : changes.lookup file = _ := lookup_dropUnlisted call.order self.rows _ file
    have last : (if file ∈ changes.keys.sort (· ≤ ·) then
        ((changes.lookup file).getD none).getD [] else current file) =
        match changes.lookup file with
        | some rows => rows.getD []
        | none => current file := by
      cases found : changes.lookup file <;> simp [mem_keys_iff, found]
    rw [last, change, Call.rowsAfter]
    by_cases listed : file ∈ call.order.ids
    · have ranked : ¬(file ∈ self.rows.keys ∧ call.order.rank file = none) := by
        rintro ⟨-, unranked⟩
        simp [unranked, listed] at rank
      rw [if_pos listed, if_neg ranked]
    · have unranked : call.order.rank file = none := by
        by_contra ranked
        exact listed (rank.mp (Option.isSome_iff_ne_none.mpr ranked))
      rw [if_neg listed]
      by_cases kept : current file = []
      · have carried := unlisted_change settles listed kept
        rw [if_neg fun hit => held.mp hit.1 kept, kept]
        cases found : (collect call.changes).lookup file with
        | none => rfl
        | some rows => rwa [found] at carried
      · rw [if_pos ⟨held.mpr kept, unranked⟩]
        rfl
  refine ⟨rows ▸ describes, fun key outside file => ?_⟩
  rw [← rows]
  exact (delta key outside).2 file

theorem update_patched
    (kept : ¬(self.rows.keys = ∅ ∧ self.postings.keys = ∅ ∧ self.values.keys = ∅)) :
    Updates current call fold self := by
  obtain ⟨describes, unmoved⟩ := patchFiles_spec exact_before settles
  have listed := rowsAfter_listed call current
  simp only [Updates, update, if_neg kept]
  generalize self.patchFiles (dropUnlisted call.order self.rows (collect call.changes)) = patch
    at describes unmoved ⊢
  have next : ∀ key, (if valuesOf call.order patch.rows patch.postings key = [] then none
      else fold key (valuesOf call.order patch.rows patch.postings key)) =
      expected fold call.order.ids (call.rowsAfter current) key := by
    intro key
    rw [expected, valuesOf_eq settles.distinct describes listed]
  simp only [next]
  generalize fresh_eq : self.foldsFresh call.order = fresh
  generalize delta_eq : (if fresh = true then patch.delta ∪ patch.postings.keys ∪ self.values.keys
    else patch.delta) = delta
  -- a key that is not refolded has the value it had
  have settled : ∀ key, key ∉ delta → self.values.lookup key =
      expected fold call.order.ids (call.rowsAfter current) key := by
    intro key outside
    cases fresh with
    | true =>
      rw [← delta_eq, if_pos rfl, mem_union, mem_union, not_or, not_or] at outside
      obtain ⟨⟨-, unposted⟩, valueless⟩ := outside
      have empty : valuesAt call.order.ids (call.rowsAfter current) key = [] := by
        refine flatMap_eq_nil_iff.mpr fun file _ => ?_
        by_contra some_values
        have member := (describes.postings key file).mpr some_values
        rw [mem_keys_iff, not_not] at unposted
        rw [posted, unposted] at member
        exact absurd member (notMem_empty file)
      rw [mem_keys_iff, not_not] at valueless
      rw [valueless, expected, if_pos empty]
    | false =>
      rw [← delta_eq, if_neg Bool.false_ne_true] at outside
      cases previous_eq : self.order with
      | none => simp [foldsFresh, previous_eq] at fresh_eq
      | some previous =>
        simp only [foldsFresh, previous_eq, Bool.not_eq_false'] at fresh_eq
        have ids : self.ids = previous.ids := by rw [ids, previous_eq]; rfl
        rw [exact_before.values key, expected, expected, ids,
          valuesAt_reordered settles.distinct (ids ▸ exact_before.distinct) fresh_eq
            (ids ▸ exact_before.listed) listed (unmoved key outside)]
  obtain ⟨lookups, report⟩ := refold_loop
    (expected fold call.order.ids (call.rowsAfter current)) (delta.sort (· ≤ ·))
    (sort_nodup _ _) self.values []
  simp only [mem_sort] at lookups
  have values : ∀ key, ((delta.sort (· ≤ ·)).foldl
      (refold (expected fold call.order.ids (call.rowsAfter current)))
      (self.values, [])).1.lookup key =
      expected fold call.order.ids (call.rowsAfter current) key := by
    intro key
    rw [lookups key]
    split
    · rfl
    · rename_i outside
      exact settled key outside
  refine ⟨⟨⟨describes.rows, describes.postings⟩, settles.distinct, listed, values⟩, ?_,
    fun key => ?_⟩
  · rw [report, nil_append]
    exact (sort_nodup _ _).filter _
  · rw [report, nil_append, mem_filter, mem_sort, decide_eq_true_eq, values key]
    refine ⟨And.right, fun differs => ⟨?_, differs⟩⟩
    by_contra outside
    exact differs (settled key outside)

end KeyedFold

end SolidChecker.Fixpoint
