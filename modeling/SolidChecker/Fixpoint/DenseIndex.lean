/- source: solid-reactive-ir/src/base/fixpoint.rs -/

import SolidChecker.Foundation.Table

namespace SolidChecker.Fixpoint

open List

open Foundation.Table (lookup_insert_eq lookup_erase_eq)

abbrev Slot := ℕ

/-- Keys to dense slots. A removed key's slot is reused by the next insert; `free`
is a stack with its top first. -/
structure DenseIndex (K : Type*) where
  slots : Finmap fun _ : K => Slot
  keys : List (Option K)
  free : List Slot

structure Solved (K : Type*) where
  changed : List K
  recomputed : ℕ
  fresh : Bool

def freshCone (cone nodes : ℕ) : Bool := decide (nodes < cone * 4)

variable {K : Type*} [DecidableEq K]

namespace DenseIndex

def empty : DenseIndex K := ⟨∅, [], []⟩

variable (index : DenseIndex K)

def get (key : K) : Option Slot := index.slots.lookup key

def key (slot : Slot) : Option K := (index.keys[slot]?).join

def insert (key : K) : DenseIndex K × Slot × Bool :=
  match index.get key with
  | some slot => (index, slot, false)
  | none =>
    match index.free with
    | slot :: free =>
      (⟨index.slots.insert key slot, index.keys.set slot (some key), free⟩, slot, true)
    | [] =>
      (⟨index.slots.insert key index.keys.length, index.keys ++ [some key], []⟩,
        index.keys.length, true)

def remove (slot : Slot) : DenseIndex K :=
  match index.key slot with
  | none => index
  | some key => ⟨index.slots.erase key, index.keys.set slot none, slot :: index.free⟩

def capacity : ℕ := index.keys.length

def len : ℕ := index.slots.keys.card

def liveSlots : List Slot :=
  (List.range index.capacity).filter fun slot => (index.key slot).isSome

structure Valid (index : DenseIndex K) : Prop where
  inverse : ∀ key slot, index.get key = some slot ↔ index.key slot = some key
  free_dead : ∀ slot ∈ index.free, index.key slot = none
  free_bound : ∀ slot ∈ index.free, slot < index.capacity
  free_nodup : index.free.Nodup

variable {slot other : Slot} {key : K}

theorem Valid.slot_unique {index : DenseIndex K} (valid : index.Valid)
    (named : index.key slot = some key) (also : index.key other = some key) : slot = other := by
  rw [← valid.inverse] at named also
  exact Option.some.inj (named.symm.trans also)

theorem empty_valid : (empty : DenseIndex K).Valid := by
  refine ⟨fun key slot => ?_, by simp [empty], by simp [empty], by simp [empty]⟩
  simp [empty, get, DenseIndex.key]

omit [DecidableEq K] in
theorem mem_liveSlots (slot : Slot) : slot ∈ index.liveSlots ↔ index.key slot ≠ none := by
  simp only [liveSlots, mem_filter, mem_range, capacity, Option.isSome_iff_ne_none]
  refine ⟨fun held => held.2, fun live => ⟨?_, live⟩⟩
  by_contra beyond
  have absent : index.keys[slot]? = none := getElem?_eq_none (Nat.le_of_not_lt beyond)
  simp only [DenseIndex.key, absent, Option.join_none, ne_eq, not_true_eq_false] at live

structure Inserted (index : DenseIndex K) (key : K) (result : DenseIndex K) (slot : Slot)
    (new : Bool) : Prop where
  valid : result.Valid
  keys : ∀ other, result.key other = if other = slot then some key else index.key other
  old : new = false → result = index ∧ index.key slot = some key
  fresh : new = true → index.key slot = none ∧ index.get key = none

-- Both allocations (a reused slot, a pushed one) meet these conditions.
private theorem inserted_valid {index result : DenseIndex K} (valid : index.Valid)
    (absent : index.get key = none) (dead : index.key slot = none)
    (slots : result.slots = index.slots.insert key slot)
    (keys : ∀ other, result.key other = if other = slot then some key else index.key other)
    (free : ∀ other ∈ result.free, other ∈ index.free ∧ other ≠ slot)
    (nodup : result.free.Nodup) (grows : index.capacity ≤ result.capacity) : result.Valid := by
  have unnamed : ∀ other, index.key other ≠ some key := fun other named => by
    rw [← valid.inverse, absent] at named
    exact nomatch named
  refine ⟨fun key' slot' => ?_, fun other member => ?_, fun other member => ?_, nodup⟩
  · have inverse := valid.inverse key' slot'
    have stranger := unnamed slot'
    rw [get] at inverse
    rw [keys, get, slots, lookup_insert_eq]
    by_cases same : key' = key <;> by_cases at_slot : slot' = slot
    · simp [same, at_slot]
    · simp [same, at_slot, stranger, Ne.symm at_slot]
    · simp only [at_slot, dead, reduceCtorEq, iff_false] at inverse ⊢
      simpa [same, Ne.symm same] using inverse
    · simpa only [same, at_slot, if_false] using inverse
  · obtain ⟨old, different⟩ := free other member
    rw [keys, if_neg different]
    exact valid.free_dead other old
  · exact (valid.free_bound other (free other member).1).trans_le grows

omit [DecidableEq K] in
private theorem key_set (slots : Finmap fun _ : K => Slot) (free : List Slot)
    (bound : slot < index.capacity) (value : Option K) (other : Slot) :
    (⟨slots, index.keys.set slot value, free⟩ : DenseIndex K).key other =
      if other = slot then value else index.key other := by
  simp only [DenseIndex.key, getElem?_set]
  by_cases same : other = slot
  · subst same
    simp only [if_true, show other < index.keys.length from bound, Option.join_some]
  · have different : slot ≠ other := fun equal => same equal.symm
    simp only [different, same, if_false]

omit [DecidableEq K] in
private theorem key_push (slots : Finmap fun _ : K => Slot) (free : List Slot) (key : K)
    (other : Slot) : (⟨slots, index.keys ++ [some key], free⟩ : DenseIndex K).key other =
      if other = index.keys.length then some key else index.key other := by
  simp only [DenseIndex.key]
  by_cases same : other = index.keys.length
  · subst same
    simp only [getElem?_concat_length, Option.join_some, if_true]
  · rw [if_neg same]
    by_cases below : other < index.keys.length
    · rw [getElem?_append_left below]
    · have after : index.keys.length < other :=
        Nat.lt_of_le_of_ne (Nat.le_of_not_lt below) (Ne.symm same)
      have beyond : (index.keys ++ [some key]).length ≤ other := by
        rw [length_append, length_singleton]
        exact after
      rw [getElem?_eq_none beyond, getElem?_eq_none after.le]

theorem insert_spec {index : DenseIndex K} (valid : index.Valid) (key : K) :
    Inserted index key (index.insert key).1 (index.insert key).2.1 (index.insert key).2.2 := by
  unfold insert
  cases held : index.get key with
  | some slot =>
    have named : index.key slot = some key := (valid.inverse key slot).mp held
    refine ⟨valid, fun other => ?_, fun _ => ⟨rfl, named⟩, fun new => nomatch new⟩
    by_cases same : other = slot
    · simp only [same, named, if_true]
    · simp only [same, if_false]
  | none =>
    cases free : index.free with
    | cons slot rest =>
      have top : slot ∈ index.free := free ▸ mem_cons_self
      have nodup : (slot :: rest).Nodup := free ▸ valid.free_nodup
      have dead : index.key slot = none := valid.free_dead slot top
      have keys := key_set index (index.slots.insert key slot) rest
        (valid.free_bound slot top) (some key)
      refine ⟨inserted_valid valid held dead rfl keys ?_ (nodup_cons.mp nodup).2 ?_,
        keys, (fun old => nomatch old), fun _ => ⟨dead, held⟩⟩
      · intro other member
        refine ⟨free ▸ mem_cons_of_mem _ member, fun same => ?_⟩
        exact (nodup_cons.mp nodup).1 (same ▸ member)
      · simp only [capacity, length_set, le_refl]
    | nil =>
      have dead : index.key index.keys.length = none := by
        simp only [DenseIndex.key, getElem?_eq_none le_rfl, Option.join_none]
      have keys := key_push index (index.slots.insert key index.keys.length) [] key
      refine ⟨inserted_valid valid held dead rfl keys ?_ nodup_nil ?_,
        keys, (fun old => nomatch old), fun _ => ⟨dead, held⟩⟩
      · intro other member
        exact nomatch member
      · simp only [capacity, length_append, length_cons, length_nil]
        omega

theorem Inserted.named {index result : DenseIndex K} {new : Bool}
    (inserted : Inserted index key result slot new) : result.key slot = some key := by
  rw [inserted.keys, if_pos rfl]

theorem Inserted.kept {index result : DenseIndex K} {key key' : K}
    {new : Bool} (inserted : Inserted index key result slot new)
    (live : index.key other = some key') : result.key other = some key' := by
  rw [inserted.keys]
  by_cases same : other = slot
  · subst same
    cases new with
    | false => rw [if_pos rfl, ← (inserted.old rfl).2, live]
    | true =>
      rw [(inserted.fresh rfl).1] at live
      exact nomatch live
  · rw [if_neg same, live]

theorem remove_key (slot other : Slot) :
    (index.remove slot).key other = if other = slot then none else index.key other := by
  unfold remove
  cases held : index.key slot with
  | none =>
    by_cases same : other = slot
    · simp only [same, held, if_true]
    · simp only [same, if_false]
  | some key =>
    have bound : slot < index.capacity := by
      have live : slot ∈ index.liveSlots := (index.mem_liveSlots slot).mpr (by simp [held])
      exact mem_range.mp (mem_filter.mp live).1
    exact key_set index _ _ bound none other

theorem remove_valid {index : DenseIndex K} (valid : index.Valid) (slot : Slot) :
    (index.remove slot).Valid := by
  have keys := fun other => remove_key index slot other
  cases held : index.key slot with
  | none =>
    have same : index.remove slot = index := by simp only [remove, held]
    rw [same]
    exact valid
  | some key =>
    have result : index.remove slot =
        ⟨index.slots.erase key, index.keys.set slot none, slot :: index.free⟩ := by
      simp only [remove, held]
    have bound : slot < index.capacity := by
      have live : slot ∈ index.liveSlots := (index.mem_liveSlots slot).mpr (by simp [held])
      exact mem_range.mp (mem_filter.mp live).1
    refine ⟨fun key' slot' => ?_, fun other member => ?_, fun other member => ?_, ?_⟩
    · have inverse := valid.inverse key' slot'
      have only : index.key slot' = some key → slot' = slot := fun named =>
        valid.slot_unique named held
      rw [get] at inverse
      rw [keys, result, get, lookup_erase_eq]
      by_cases same : key' = key <;> by_cases at_slot : slot' = slot
      · simp [same, at_slot]
      · simpa [same, at_slot] using mt only at_slot
      · simp only [at_slot, held, Option.some.injEq, Ne.symm same, iff_false] at inverse ⊢
        simpa [same] using inverse
      · simpa only [same, at_slot, if_false] using inverse
    · rw [keys]
      by_cases same : other = slot
      · rw [if_pos same]
      · rw [if_neg same]
        rw [result] at member
        exact valid.free_dead other ((mem_cons.mp member).resolve_left same)
    · rw [result] at member ⊢
      simp only [capacity, length_set]
      rcases mem_cons.mp member with rfl | old
      · exact bound
      · exact valid.free_bound other old
    · rw [result]
      refine nodup_cons.mpr ⟨fun member => ?_, valid.free_nodup⟩
      rw [valid.free_dead slot member] at held
      exact nomatch held

end DenseIndex

end SolidChecker.Fixpoint
