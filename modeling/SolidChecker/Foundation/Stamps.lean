/- digest: A content that changes only with a fresh version can be told by its version. -/

import Mathlib.Order.Nat

namespace SolidChecker.Foundation

structure Stamps (K : Type*) where
  version : K → Option ℕ
  next : ℕ

namespace Stamps

variable {K V : Type*} [DecidableEq K] (stamps : Stamps K)

def clear : Stamps K := { stamps with version := fun _ => none }

def stamp (key : K) : Stamps K :=
  ⟨Function.update stamps.version key (some (stamps.next + 1)), stamps.next + 1⟩

def drop (key : K) : Stamps K :=
  { stamps with version := Function.update stamps.version key none }

variable (keys : List K)

def dropAll : Stamps K := keys.foldl drop stamps

def stampAll : Stamps K := keys.foldl stamp stamps

def Fresh (before after : Stamps K) (key : K) : Prop :=
  ∃ version, after.version key = some version ∧ before.next < version ∧ version ≤ after.next

structure Means (stamps : Stamps K) (meaning : K → ℕ → V) (blank : V) (content : K → V) : Prop where
  versioned : ∀ key version, stamps.version key = some version →
    version ≤ stamps.next ∧ content key = meaning key version
  unversioned : ∀ key, stamps.version key = none → content key = blank

def Steps (before after : Stamps K) (content moved : K → V) (blank : V) (key : K) : Prop :=
  (after.version key = before.version key ∧ moved key = content key) ∨
    Fresh before after key ∨ (after.version key = none ∧ moved key = blank)

omit [DecidableEq K] in
theorem Means.move {before after : Stamps K} {meaning : K → ℕ → V} {blank : V}
    {content moved : K → V} (means : before.Means meaning blank content)
    (later : before.next ≤ after.next) (moves : ∀ key, Steps before after content moved blank key) :
    ∃ extended : K → ℕ → V, after.Means extended blank moved ∧
      ∀ key version, version ≤ before.next → extended key version = meaning key version := by
  refine ⟨fun key version => if version ≤ before.next then meaning key version else moved key,
    ⟨fun key version found => ?_, fun key none => ?_⟩, fun key version old => if_pos old⟩
  · rcases moves key with ⟨same, left⟩ | ⟨fresh, given, above, bound⟩ | ⟨none, -⟩
    · obtain ⟨bound, meant⟩ := means.versioned key version (same ▸ found)
      exact ⟨bound.trans later, by rw [left, meant, if_pos bound]⟩
    · cases given.symm.trans found
      exact ⟨bound, (if_neg (not_le_of_gt above)).symm⟩
    · rw [none] at found
      exact nomatch found
  · rcases moves key with ⟨same, left⟩ | ⟨fresh, given, -⟩ | ⟨-, emptied⟩
    · rw [left, means.unversioned key (same ▸ none)]
    · rw [none] at given
      exact nomatch given
    · exact emptied

theorem dropAll_next : (stamps.dropAll keys).next = stamps.next := by
  induction keys generalizing stamps with
  | nil => rfl
  | cons key keys ih => exact ih (stamps.drop key)

theorem dropAll_version (key : K) :
    (stamps.dropAll keys).version key = if key ∈ keys then none else stamps.version key := by
  induction keys generalizing stamps with
  | nil => rfl
  | cons first keys ih =>
    rw [dropAll, List.foldl_cons, ← dropAll, ih]
    by_cases same : key = first <;> simp [drop, same]

theorem stampAll_next : stamps.next ≤ (stamps.stampAll keys).next := by
  induction keys generalizing stamps with
  | nil => exact le_rfl
  | cons key keys ih => exact (Nat.le_succ _).trans (ih (stamps.stamp key))

theorem stampAll_of_not_mem {keys : List K} {key : K} (absent : key ∉ keys) :
    (stamps.stampAll keys).version key = stamps.version key := by
  induction keys generalizing stamps with
  | nil => rfl
  | cons first keys ih =>
    have differ : key ≠ first := List.ne_of_not_mem_cons absent
    have later : key ∉ keys := List.not_mem_of_not_mem_cons absent
    exact (ih (stamps.stamp first) later).trans (Function.update_of_ne differ _ _)

theorem stampAll_of_mem {keys : List K} {key : K} (member : key ∈ keys) :
    Fresh stamps (stamps.stampAll keys) key := by
  induction keys generalizing stamps with
  | nil => exact nomatch member
  | cons first keys ih =>
    by_cases later : key ∈ keys
    · obtain ⟨version, given, above, bound⟩ := ih (stamps.stamp first) later
      exact ⟨version, given, (Nat.lt_succ_self _).trans above, bound⟩
    · obtain rfl := (List.mem_cons.mp member).resolve_right later
      refine ⟨stamps.next + 1, ?_, Nat.lt_succ_self _, stampAll_next (stamps.stamp key) keys⟩
      show ((stamps.stamp key).stampAll keys).version key = _
      rw [stampAll_of_not_mem _ later]
      exact Function.update_self _ _ _

end Stamps

end SolidChecker.Foundation
