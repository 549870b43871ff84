/- digest: Computations that ask an oracle: the recorded answers determine the result. -/

import Mathlib.Init

namespace SolidChecker.Foundation

/-- A computation that asks before it answers; a later question may depend on earlier answers. -/
inductive Asking (N U : Type*)
  | answer (value : U)
  | ask (name : N) (next : Bool → Asking N U)

namespace Asking

variable {N U : Type*}

def run (oracle : N → Bool) : Asking N U → U × List (N × Bool)
  | .answer value => (value, [])
  | .ask name next =>
    let rest := (next (oracle name)).run oracle
    (rest.1, (name, oracle name) :: rest.2)

theorem run_eq_of_recorded {oracle other : N → Bool} (asking : Asking N U)
    (recorded : ∀ asked ∈ (asking.run oracle).2, other asked.1 = asked.2) :
    asking.run other = asking.run oracle := by
  induction asking with
  | answer value => rfl
  | ask name next ih =>
    have same : other name = oracle name := recorded (name, oracle name) List.mem_cons_self
    have rest := ih (oracle name) fun asked member =>
      recorded asked (List.mem_cons_of_mem _ member)
    simp only [run, same, rest]

end Asking

end SolidChecker.Foundation
