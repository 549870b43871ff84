/- digest: Iterating a map until a quiet round or a cap, and logs that store a sequence by its changes. -/

import Mathlib.Data.List.TakeWhile
import Mathlib.Order.Lattice

namespace SolidChecker.Foundation.Rounds

open List

section

variable {σ : Type*}

def IsIteration (next : σ → σ) (x : ℕ → σ) : Prop := ∀ r, x (r + 1) = next (x r)

theorem IsIteration.constant {next : σ → σ} {x : ℕ → σ} (iterated : IsIteration next x) {r : ℕ}
    (quiet : x (r + 1) = x r) {q : ℕ} (later : r ≤ q) : x q = x r := by
  induction q, later using Nat.le_induction with
  | base => rfl
  | succ q _ ih => rw [iterated q, ih, ← iterated r, quiet]

/-- The loop ran `stop` rounds: each round before moved, and it stopped because the last
one did not (`quiet`) or because the cap was reached. -/
structure StopsAt (x : ℕ → σ) (cap stop : ℕ) (quiet : Bool) : Prop where
  positive : 1 ≤ stop
  capped : stop ≤ cap
  moved : ∀ r, r + 1 < stop → x (r + 1) ≠ x r
  last_quiet : quiet = true → x stop = x (stop - 1)
  last_moved : quiet = false → stop = cap ∧ x stop ≠ x (stop - 1)

theorem StopsAt.unique {x : ℕ → σ} {cap stop stop' : ℕ} {quiet quiet' : Bool}
    (first : StopsAt x cap stop quiet) (second : StopsAt x cap stop' quiet') :
    stop = stop' ∧ quiet = quiet' := by
  have no_later : ∀ {stop stop' : ℕ} {quiet quiet' : Bool}, StopsAt x cap stop quiet →
      StopsAt x cap stop' quiet' → ¬stop < stop' := by
    intro stop stop' quiet quiet' first second before
    have one := first.positive
    have cap_bound := second.capped
    cases quiet with
    | false =>
      have at_cap := (first.last_moved rfl).1
      omega
    | true =>
      have still := first.last_quiet rfl
      have moved := second.moved (stop - 1) (by omega)
      rw [Nat.sub_add_cancel one] at moved
      exact moved still
  have same : stop = stop' :=
    Nat.le_antisymm (Nat.le_of_not_lt (no_later second first))
      (Nat.le_of_not_lt (no_later first second))
  subst same
  refine ⟨rfl, ?_⟩
  cases quiet with
  | false =>
    cases quiet' with
    | false => rfl
    | true => exact absurd (second.last_quiet rfl) (first.last_moved rfl).2
  | true =>
    cases quiet' with
    | false => exact absurd (first.last_quiet rfl) (second.last_moved rfl).2
    | true => rfl

end

section

variable {V : Type*}

def valueAt (log : List (ℕ × V)) (round : ℕ) : Option V :=
  ((log.takeWhile fun entry => decide (entry.1 ≤ round)).getLast?).map Prod.snd

def Steady (x : ℕ → Option V) : Prop := ∀ r, x r = none ↔ x 0 = none

variable [DecidableEq V]

def record (x : ℕ → Option V) : ℕ → List (ℕ × V)
  | 0 => (x 0).toList.map (0, ·)
  | n + 1 => record x n ++ if x (n + 1) = x n then [] else (x (n + 1)).toList.map (n + 1, ·)

private theorem record_rounds (x : ℕ → Option V) (n : ℕ) : ∀ entry ∈ record x n, entry.1 ≤ n := by
  induction n with
  | zero =>
    intro entry member
    simp only [record, mem_map] at member
    obtain ⟨_, _, rfl⟩ := member
    exact le_rfl
  | succ n ih =>
    intro entry member
    rw [record, mem_append] at member
    rcases member with old | new
    · exact (ih entry old).trans (Nat.le_succ n)
    · split at new
      · exact nomatch new
      · obtain ⟨_, _, rfl⟩ := mem_map.mp new
        exact le_rfl

variable {x : ℕ → Option V}

theorem record_absent (absent : ∀ r, x r = none) (n : ℕ) : record x n = [] := by
  induction n with
  | zero => simp [record, absent]
  | succ n ih => simp [record, absent, ih]

theorem record_eq_of_constant {n m : ℕ} (le : n ≤ m)
    (still : ∀ q, n ≤ q → q < m → x (q + 1) = x q) : record x m = record x n := by
  induction m, le using Nat.le_induction with
  | base => rfl
  | succ m bound ih =>
    rw [record, if_pos (still m bound (Nat.lt_succ_self m)), append_nil]
    exact ih fun q lower upper => still q lower (upper.trans (Nat.lt_succ_self m))

theorem record_last (steady : Steady x) (n : ℕ) : ((record x n).getLast?).map Prod.snd = x n := by
  induction n with
  | zero => cases first : x 0 <;> simp [record, first]
  | succ n ih =>
    rw [record]
    by_cases still : x (n + 1) = x n
    · rw [if_pos still, append_nil, ih, still]
    · rw [if_neg still]
      cases value : x (n + 1) with
      | none =>
        have absent : x n = none := (steady n).mpr ((steady (n + 1)).mp value)
        exact absurd (value.trans absent.symm) still
      | some v => simp

theorem record_last_round (steady : Steady x) {n r : ℕ} {v : V}
    (last : (record x n).getLast? = some (r, v)) :
    r ≤ n ∧ (∀ q, r ≤ q → q < n → x (q + 1) = x q) ∧ (0 < r → x r ≠ x (r - 1)) := by
  induction n with
  | zero =>
    cases first : x 0 with
    | none => simp [record, first] at last
    | some value =>
      simp only [record, first, Option.toList_some, map_cons, map_nil,
        getLast?_singleton, Option.some.injEq, Prod.mk.injEq] at last
      obtain ⟨rfl, -⟩ := last
      exact ⟨le_rfl, fun q _ upper => absurd upper (Nat.not_lt_zero q),
        fun positive => absurd positive (Nat.lt_irrefl 0)⟩
  | succ n ih =>
    rw [record] at last
    by_cases still : x (n + 1) = x n
    · rw [if_pos still, append_nil] at last
      obtain ⟨bound, constant, moved⟩ := ih last
      refine ⟨bound.trans (Nat.le_succ n), fun q lower upper => ?_, moved⟩
      rcases Nat.lt_succ_iff_lt_or_eq.mp upper with earlier | rfl
      · exact constant q lower earlier
      · exact still
    · rw [if_neg still] at last
      cases value : x (n + 1) with
      | none =>
        have absent : x n = none := (steady n).mpr ((steady (n + 1)).mp value)
        exact absurd (value.trans absent.symm) still
      | some w =>
        simp only [value, Option.toList_some, map_cons, map_nil,
          getLast?_concat, Option.some.injEq, Prod.mk.injEq] at last
        obtain ⟨rfl, -⟩ := last
        refine ⟨le_rfl, fun q lower upper => absurd upper (by omega), fun _ => ?_⟩
        rw [Nat.add_sub_cancel]
        exact still

theorem valueAt_record (steady : Steady x) (n r : ℕ) : valueAt (record x n) r = x (min r n) := by
  have whole : ∀ n, n ≤ r → valueAt (record x n) r = x n := by
    intro n bound
    rw [valueAt, takeWhile_eq_self_iff.mpr, record_last steady]
    intro entry member
    exact decide_eq_true ((record_rounds x n entry member).trans bound)
  by_cases bound : n ≤ r
  · rw [whole n bound, Nat.min_eq_right bound]
  · have below : r ≤ n := Nat.le_of_not_le bound
    rw [Nat.min_eq_left below]
    clear bound
    induction n, below using Nat.le_induction with
    | base => exact whole r le_rfl
    | succ n below ih =>
      have later : (if x (n + 1) = x n then [] else (x (n + 1)).toList.map (n + 1, ·)).takeWhile
          (fun entry => entry.1 ≤ r) = [] := by
        split
        · rfl
        · cases x (n + 1) with
          | none => rfl
          | some v =>
            have above : ¬n + 1 ≤ r := by omega
            simp only [Option.toList_some, map_singleton, takeWhile_cons, decide_eq_false above]
            rfl
      rw [← ih, record, valueAt, valueAt, takeWhile_append, later]
      split
      · rename_i all
        rw [append_nil]
        rw [takeWhile_eq_self_iff.mpr]
        exact takeWhile_eq_self_iff.mp (( takeWhile_prefix _).eq_of_length all)
      · rfl

end

end SolidChecker.Foundation.Rounds
