/- source: solid-reactive-ir/src/base/fixpoint/monotone.rs, rounds.rs -/

import SolidChecker.Fixpoint.Apply

namespace SolidChecker.Fixpoint

open Option

open KeptGraph (AppliedTo IsCone Swept definitionOf_of_key definitionAt_eq_none
  slot_of_definitionOf)

variable {K I V E : Type*}

/-- A solver's value of a key: what `last` holds for its slot, if the slot is defined. -/
def valueOf [DecidableEq K] (graph : KeptGraph K I E) (last : Slot → Option V) (key : K) :
    Option V :=
  (graph.index.get key).bind fun slot => if graph.isDefined slot then last slot else none

def valueBefore (graph : KeptGraph K I E) (applied : Applied K) (old : Slot → Option V)
    (slot : Slot) : Option V :=
  let defined :=
    if slot ∈ applied.seeds then decide (slot ∈ applied.wasDefined) else graph.isDefined slot
  if defined then old slot else none

def changedKeys [DecidableEq V] (graph : KeptGraph K I E) (applied : Applied K)
    (old new : Slot → Option V) (cone : Finset Slot) : List K :=
  let differing := (cone.sort (· ≤ ·)).filter fun slot =>
    graph.isDefined slot && decide (valueBefore graph applied old slot ≠ new slot)
  applied.undefined ++ differing.filterMap graph.index.key

variable [DecidableEq K] {before graph : KeptGraph K I E} {applied : Applied K}
  {changes : List (Change K I E)} {key : K}

theorem valueOf_of_defined (valid : graph.index.Valid) {slot : Slot}
    (named : graph.index.key slot = some key) (defined : (graph.nodes slot).defined ≠ none)
    (last : Slot → Option V) : valueOf graph last key = last slot := by
  rw [valueOf, (valid.inverse key slot).mpr named, bind_some]
  exact if_pos (isSome_iff_ne_none.mpr defined)

theorem valueOf_of_undefined (valid : graph.index.Valid)
    (undefined : graph.definitionOf key = none) (last : Slot → Option V) :
    valueOf graph last key = none := by
  unfold valueOf
  cases found : graph.index.get key with
  | none => rfl
  | some slot =>
    have named := (valid.inverse key slot).mp found
    rw [definitionOf_of_key valid named, definitionAt_eq_none] at undefined
    simp only [bind_some, KeptGraph.isDefined, undefined, isSome_none, Bool.false_eq_true, if_false]

private theorem valueBefore_eq (valid : before.Valid) (batch : AppliedTo before graph applied changes)
    {old last : Slot → Option V} (same : ∀ s, s ∉ applied.allocated → old s = last s)
    {slot : Slot} (named : graph.index.key slot = some key) :
    valueBefore graph applied old slot = valueOf before last key := by
  have progress := batch.progress
  have defined_before : (if slot ∈ applied.seeds then decide (slot ∈ applied.wasDefined)
      else graph.isDefined slot) = (before.nodes slot).defined.isSome := by
    by_cases seeded : slot ∈ applied.seeds
    · rw [if_pos seeded, Bool.eq_iff_iff, decide_eq_true_eq, progress.was, isSome_iff_ne_none]
      exact and_iff_right seeded
    · rw [if_neg seeded, KeptGraph.isDefined, progress.held slot seeded]
  simp only [valueBefore, defined_before, valueOf, batch.key_before valid named]
  by_cases fresh : slot ∈ applied.allocated
  · have dead : before.index.key slot = none := by
      rcases (progress.grown.allocated slot).mp fresh with none_yet | ⟨dead, -⟩
      · cases none_yet
      · exact dead
    have undefined : (before.nodes slot).defined = none := by
      by_contra present
      exact valid.defined_live slot present dead
    simp only [undefined, fresh, if_true, isSome_none, Bool.false_eq_true, if_false, bind_none]
  · simp only [fresh, if_false, bind_some, KeptGraph.isDefined, same slot fresh]
    rfl

theorem changedKeys_spec [DecidableEq V] (valid : before.Valid)
    (batch : AppliedTo before graph applied changes) {cone : Finset Slot}
    (isCone : IsCone graph applied.seeds cone) {old last new : Slot → Option V}
    (same : ∀ s, s ∉ applied.allocated → old s = last s) (held : ∀ s, s ∉ cone → new s = old s)
    (present : ∀ s, (before.nodes s).defined ≠ none → last s ≠ none)
    {swept : KeptGraph K I E} (freed : Swept graph swept) :
    (changedKeys graph applied old new cone).Nodup ∧
      ∀ key, key ∈ changedKeys graph applied old new cone ↔
        valueOf before last key ≠ valueOf swept new key := by
  have later := batch.progress.valid
  have after_table := freed.definitionOf_eq later
  have listed : ∀ key, key ∈ ((cone.sort (· ≤ ·)).filter fun slot => graph.isDefined slot &&
        decide (valueBefore graph applied old slot ≠ new slot)).filterMap graph.index.key ↔
      ∃ slot ∈ cone, graph.index.key slot = some key ∧ (graph.nodes slot).defined ≠ none ∧
        valueOf before last key ≠ new slot := by
    intro key
    simp only [List.mem_filterMap, List.mem_filter, Finset.mem_sort, Bool.and_eq_true,
      decide_eq_true_eq, KeptGraph.isDefined, isSome_iff_ne_none]
    constructor
    · rintro ⟨slot, ⟨inside, defined, moved⟩, named⟩
      rw [valueBefore_eq valid batch same named] at moved
      exact ⟨slot, inside, named, defined, moved⟩
    · rintro ⟨slot, inside, named, defined, moved⟩
      rw [← valueBefore_eq valid batch same named] at moved
      exact ⟨slot, ⟨inside, defined, moved⟩, named⟩
  have after_value : ∀ slot key, graph.index.key slot = some key →
      (graph.nodes slot).defined ≠ none → valueOf swept new key = new slot := by
    intro slot key named defined
    have still : swept.index.key slot = some key := by rw [freed.kept slot defined, named]
    exact valueOf_of_defined freed.valid.index still (by rwa [freed.nodes]) new
  unfold changedKeys
  refine ⟨.append batch.undefined_nodup ?_ ?_, fun key => ?_⟩
  · refine .filterMap (fun s s' key first second => ?_) ((Finset.sort_nodup _ _).filter _)
    exact later.index.slot_unique first second
  · intro key gone moved
    obtain ⟨slot, -, named, defined, -⟩ := (listed key).mp moved
    have undefined := ((batch.undefined_iff key).mp gone).2
    rw [definitionOf_of_key later.index named, definitionAt_eq_none] at undefined
    exact defined undefined
  · rw [List.mem_append, listed, batch.undefined_iff]
    constructor
    · rintro (⟨was, gone⟩ | ⟨slot, -, named, defined, moved⟩)
      · obtain ⟨slot, named, defined⟩ := slot_of_definitionOf valid.index was
        rw [valueOf_of_undefined freed.valid.index (by rw [after_table, gone]),
          valueOf_of_defined valid.index named defined]
        exact present slot defined
      · rw [after_value slot key named defined]
        exact moved
    · intro moved
      by_cases undefined : graph.definitionOf key = none
      · refine .inl ⟨fun was => moved ?_, undefined⟩
        rw [valueOf_of_undefined valid.index was,
          valueOf_of_undefined freed.valid.index (by rw [after_table, undefined])]
      · obtain ⟨slot, named, defined⟩ := slot_of_definitionOf later.index undefined
        rw [after_value slot key named defined] at moved
        by_cases inside : slot ∈ cone
        · exact .inr ⟨slot, inside, named, defined, moved⟩
        · -- A defined slot outside the cone was defined with the same value before.
          refine absurd ?_ moved
          have unseeded : slot ∉ applied.seeds := fun seeded => inside (isCone.seeded seeded)
          rw [← valueBefore_eq valid batch same named, valueBefore, held slot inside]
          simp only [unseeded, if_false, KeptGraph.isDefined,
            isSome_iff_ne_none.mpr defined, if_true]

end SolidChecker.Fixpoint
