/- digest: Monotone equation systems, local leastness, and climbing to the least solution. -/

import Mathlib.Data.DFinsupp.WellFounded

namespace SolidChecker.Foundation.Equations

open Function

variable {S V : Type*} [PartialOrder V]

/-- A system of equations `value s = rhs s value`. A right-hand side looks only at
the unknowns it reads, and is monotone in them. -/
structure System (S V : Type*) [PartialOrder V] where
  rhs : S → (S → V) → V
  reads : S → Set S
  rhs_mono : ∀ s v w, (∀ p ∈ reads s, v p ≤ w p) → rhs s v ≤ rhs s w

variable (sys : System S V)

private theorem System.rhs_congr {s : S} {v w : S → V} (same : ∀ p ∈ sys.reads s, v p = w p) :
    sys.rhs s v = sys.rhs s w :=
  le_antisymm (sys.rhs_mono s v w fun p read => (same p read).le)
    (sys.rhs_mono s w v fun p read => (same p read).ge)

def Solution (v : S → V) : Prop := ∀ s, v s = sys.rhs s v

def ReadsClosed (A : Set S) : Prop := ∀ s ∈ A, ∀ p ∈ sys.reads s, p ∈ A

def PreSolutionOn (A : Set S) (w : S → V) : Prop := ∀ s ∈ A, sys.rhs s w ≤ w s

/-- `v` is below every pre-solution, already on each part of the system that reads
nothing outside itself. This form survives an edit elsewhere in the system; plain
leastness does not. -/
def LocallyLeast (v : S → V) : Prop :=
  ∀ A, ReadsClosed sys A → ∀ w, PreSolutionOn sys A w → ∀ s ∈ A, v s ≤ w s

variable {v : S → V}

theorem LocallyLeast.isLeast {sys : System S V} (least : LocallyLeast sys v)
    (solution : Solution sys v) : IsLeast {w | Solution sys w} v := by
  refine ⟨solution, fun w other s => ?_⟩
  exact least Set.univ (fun _ _ _ _ => trivial) w (fun s _ => (other s).ge) s trivial

/-! An edit replaces the right-hand sides inside a cone that is closed under
dependents. Outside it both systems are the same and read nothing inside. -/

structure AgreeOutside (old new : System S V) (cone : Set S) : Prop where
  reads_eq : ∀ s ∉ cone, old.reads s = new.reads s
  rhs_eq : ∀ s ∉ cone, ∀ v, old.rhs s v = new.rhs s v
  dependents : ∀ s, ∀ p ∈ cone, p ∈ new.reads s → s ∈ cone

variable {cone : Set S} {old new : System S V}

theorem AgreeOutside.least_outside (agree : AgreeOutside old new cone) (least : LocallyLeast old v)
    {A : Set S} (closed : ReadsClosed new A) {w : S → V} (pre : PreSolutionOn new A w) :
    ∀ s ∈ A, s ∉ cone → v s ≤ w s := by
  intro s member outside
  refine least {x | x ∈ A ∧ x ∉ cone} ?_ w ?_ s ⟨member, outside⟩
  · rintro x ⟨inA, out⟩ p read
    rw [agree.reads_eq x out] at read
    exact ⟨closed x inA p read, fun inside => out (agree.dependents x p inside read)⟩
  · rintro x ⟨inA, out⟩
    rw [agree.rhs_eq x out]
    exact pre x inA

theorem AgreeOutside.solves_outside
    (agree : AgreeOutside old new cone) {v w : S → V} (solution : Solution old v)
    (held : ∀ s ∉ cone, w s = v s) : ∀ s ∉ cone, w s = new.rhs s w := by
  intro s outside
  rw [held s outside, solution s, agree.rhs_eq s outside]
  refine new.rhs_congr fun p read => ?_
  exact (held p fun inside => outside (agree.dependents s p inside read)).symm

section

variable {sys} (cone : Set S)

/-- What an iteration from below keeps: on the cone every value is at most its own
right-hand side, and on each closed part it stays below every pre-solution. -/
structure Climbing (sys : System S V) (cone : Set S) (v : S → V) : Prop where
  ascending : ∀ s ∈ cone, v s ≤ sys.rhs s v
  below : LocallyLeast sys v

theorem Climbing.update [DecidableEq S] {cone : Set S} {s : S}
    (climbing : Climbing sys cone v) (inside : s ∈ cone) :
    Climbing sys cone (update v s (sys.rhs s v)) := by
  have grows : ∀ x, v x ≤ Function.update v s (sys.rhs s v) x := by
    intro x
    by_cases same : x = s
    · subst same
      rw [update_self]
      exact climbing.ascending x inside
    · rw [update_of_ne same]
  refine ⟨fun x member => ?_, fun A closed w pre x member => ?_⟩
  · have larger : sys.rhs x v ≤ sys.rhs x (Function.update v s (sys.rhs s v)) :=
      sys.rhs_mono x _ _ fun p _ => grows p
    by_cases same : x = s
    · subst same
      rw [update_self]
      exact larger
    · rw [update_of_ne same]
      exact (climbing.ascending x member).trans larger
  · by_cases same : x = s
    · subst same
      rw [update_self]
      refine le_trans (sys.rhs_mono x v w fun p read => ?_) (pre x member)
      exact climbing.below A closed w pre p (closed x member p read)
    · rw [update_of_ne same]
      exact climbing.below A closed w pre x member

end

theorem ascent_wellFounded [WellFoundedGT V] (cone : Finset S) :
    WellFounded fun (w v : cone → V) => v < w :=
  (inferInstance : WellFoundedLT (cone → Vᵒᵈ)).wf

end SolidChecker.Foundation.Equations
