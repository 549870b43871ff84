/- digest: A table that gives each value the place of its first occurrence. -/

import Mathlib.Data.List.Nodup

namespace SolidChecker.Foundation

open List

variable {α : Type*} [DecidableEq α]

def placeOf (values : List α) (value : α) : ℕ := values.idxOf value

def intern (values : List α) (value : α) : ℕ × List α :=
  if value ∈ values then (placeOf values value, values) else (values.length, values ++ [value])

section

variable (values : List α) (value : α)

theorem mem_intern : value ∈ (intern values value).2 := by
  unfold intern
  split
  · assumption
  · exact mem_append_right values mem_cons_self

theorem isPrefix_intern : values <+: (intern values value).2 := by
  unfold intern
  split
  · exact prefix_refl values
  · exact prefix_append values [value]

theorem length_intern : (intern values value).2.length ≤ values.length + 1 := by
  unfold intern
  split
  · exact Nat.le_succ _
  · exact Nat.le_of_eq length_append

theorem intern_place : (intern values value).1 = placeOf (intern values value).2 value := by
  unfold intern placeOf
  split
  · rfl
  · rename_i new
    rw [idxOf_append_of_notMem new, idxOf_cons_self, Nat.add_zero]

end

section

variable {values longer : List α} {value other : α}

theorem placeOf_of_isPrefix (grown : values <+: longer) (member : value ∈ values) :
    placeOf longer value = placeOf values value := by
  obtain ⟨more, rfl⟩ := grown
  exact idxOf_append_of_mem member

theorem getElem_placeOf (member : value ∈ values) : values[placeOf values value]? = some value :=
  getElem?_idxOf member

theorem placeOf_lt (member : value ∈ values) : placeOf values value < values.length :=
  idxOf_lt_length_of_mem member

theorem placeOf_inj (member : value ∈ values) (otherMember : other ∈ values) :
    placeOf values value = placeOf values other ↔ value = other := by
  refine ⟨fun same => ?_, fun same => same ▸ rfl⟩
  have found := getElem_placeOf member
  rw [same, getElem_placeOf otherMember] at found
  exact (Option.some.inj found).symm

end

end SolidChecker.Foundation
