/- digest: Fuel-indexed programs, when they return, and a total-correctness rule for loops. -/

import Mathlib.Order.WellFounded

namespace SolidChecker.Foundation.Loop

variable {α β σ : Type*}

def Returns (run : ℕ → Option α) (a : α) : Prop :=
  ∃ enough, ∀ fuel, enough ≤ fuel → run fuel = some a

variable {run : ℕ → Option α}

theorem Returns.unique {a b : α} (first : Returns run a) (second : Returns run b) : a = b := by
  obtain ⟨n, left⟩ := first
  obtain ⟨m, right⟩ := second
  have both : some a = some b := by
    rw [← left (max n m) (Nat.le_max_left n m), right (max n m) (Nat.le_max_right n m)]
  exact Option.some.inj both

theorem Returns.pure (a : α) : Returns (fun _ => some a) a :=
  ⟨0, fun _ _ => rfl⟩

theorem Returns.bind {next : α → ℕ → Option β} {a : α} {b : β}
    (first : Returns run a) (second : Returns (next a) b) :
    Returns (fun fuel => (run fuel).bind fun x => next x fuel) b := by
  obtain ⟨n, left⟩ := first
  obtain ⟨m, right⟩ := second
  refine ⟨max n m, fun fuel enough => ?_⟩
  simp only [left fuel (le_trans (Nat.le_max_left n m) enough), Option.bind_some]
  exact right fuel (le_trans (Nat.le_max_right n m) enough)

private theorem Returns.succ (body : ℕ → Option α) {a : α}
    (unfold : ∀ fuel, run (fuel + 1) = body fuel) (inner : Returns body a) : Returns run a := by
  obtain ⟨n, returned⟩ := inner
  refine ⟨n + 1, fun fuel enough => ?_⟩
  obtain ⟨rest, rfl⟩ : ∃ rest, fuel = rest + 1 := ⟨fuel - 1, by omega⟩
  rw [unfold]
  exact returned rest (by omega)

/-- `while let some next = step state`: iterate until `step` answers `none`. One
unit of fuel pays for one turn. -/
def whileLoop (step : σ → Option σ) : ℕ → σ → Option σ
  | 0, _ => none
  | fuel + 1, state =>
    match step state with
    | none => some state
    | some next => whileLoop step fuel next

theorem whileLoop_returns (step : σ → Option σ) (Inv : σ → Prop)
    (preserved : ∀ state next, Inv state → step state = some next → Inv next)
    (descent : σ → σ → Prop) (founded : WellFounded descent)
    (descends : ∀ state next, Inv state → step state = some next → descent next state)
    (state : σ) (initial : Inv state) :
    ∃ result, Returns (fun fuel => whileLoop step fuel state) result ∧
      Inv result ∧ step result = none := by
  induction state using founded.induction with
  | _ state ih =>
    cases turn : step state with
    | none =>
      refine ⟨state, .succ (fun _ => some state) ?_ (.pure state), initial, turn⟩
      intro fuel
      simp only [whileLoop, turn]
    | some next =>
      obtain ⟨result, returned, final⟩ :=
        ih next (descends state next initial turn) (preserved state next initial turn)
      refine ⟨result, .succ (fun fuel => whileLoop step fuel next) ?_ returned, final⟩
      intro fuel
      simp only [whileLoop, turn]

theorem whileLoop_returns_of_measure (step : σ → Option σ) (Inv : σ → Prop)
    (preserved : ∀ state next, Inv state → step state = some next → Inv next) (measure : σ → ℕ)
    (descends : ∀ state next, Inv state → step state = some next → measure next < measure state)
    (state : σ) (initial : Inv state) :
    ∃ result, Returns (fun fuel => whileLoop step fuel state) result ∧
      Inv result ∧ step result = none :=
  whileLoop_returns step Inv preserved (fun a b => measure a < measure b)
    (InvImage.wf measure Nat.lt_wfRel.wf) descends state initial

variable {fuel : ℕ} {state result : σ}

theorem whileLoop_keeps (step : σ → Option σ) (Inv : σ → Prop)
    (preserved : ∀ state next, Inv state → step state = some next → Inv next)
    (initial : Inv state) (returned : whileLoop step fuel state = some result) :
    Inv result ∧ step result = none := by
  induction fuel generalizing state with
  | zero => exact nomatch returned
  | succ fuel ih =>
    rw [whileLoop] at returned
    split at returned
    · rename_i stopped
      cases returned
      exact ⟨initial, stopped⟩
    · rename_i next turn
      exact ih (preserved state next initial turn) returned

theorem whileLoop_within (step : σ → Option σ) (Inv : σ → Prop)
    (preserved : ∀ state next, Inv state → step state = some next → Inv next) (measure : σ → ℕ)
    (descends : ∀ state next, Inv state → step state = some next → measure next < measure state)
    {state : σ} (initial : Inv state) (enough : measure state < fuel) :
    ∃ result, whileLoop step fuel state = some result ∧ Inv result ∧ step result = none := by
  induction fuel generalizing state with
  | zero => exact absurd enough (Nat.not_lt_zero _)
  | succ fuel ih =>
    cases turn : step state with
    | none => exact ⟨state, by simp only [whileLoop, turn], initial, turn⟩
    | some next =>
      have smaller := descends state next initial turn
      obtain ⟨result, returned, final⟩ := ih (preserved state next initial turn) (by omega)
      exact ⟨result, by simp only [whileLoop, turn, returned], final⟩

def Ends (step : σ → Option σ) (state result : σ) : Prop :=
  ∃ fuel, whileLoop step fuel state = some result

theorem Ends.turn {step : σ → Option σ} {next : σ} (ends : Ends step state result)
    (turn : step state = some next) : Ends step next result := by
  obtain ⟨_ | fuel, returned⟩ := ends
  · cases returned
  · rw [whileLoop, turn] at returned
    exact ⟨fuel, returned⟩

theorem Ends.eq_of_stopped {step : σ → Option σ} (ends : Ends step state result)
    (stopped : step state = none) : state = result := by
  obtain ⟨_ | fuel, returned⟩ := ends
  · cases returned
  · rw [whileLoop, stopped] at returned
    exact Option.some.inj returned

end SolidChecker.Foundation.Loop
