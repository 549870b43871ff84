/- digest: Computations that see a world only through questions. -/

import Mathlib.Data.Finset.Dedup

namespace SolidChecker.Foundation

/-- A computation that asks before it ends; `A question` is the type of an answer. -/
inductive Dialogue {Q : Type} (A : Q → Type) (R : Type)
  | done (result : R)
  | ask (question : Q) (next : A question → Dialogue A R)

namespace Dialogue

variable {Q : Type} {A : Q → Type} {R S : Type}

def bind : Dialogue A R → (R → Dialogue A S) → Dialogue A S
  | .done result, later => later result
  | .ask question next, later => .ask question fun answer => (next answer).bind later

instance : Monad (Dialogue A) where
  pure := .done
  bind := Dialogue.bind

def run (world : ∀ question, A question) : Dialogue A R → R
  | .done result => result
  | .ask question next => (next (world question)).run world

def asked (world : ∀ question, A question) : Dialogue A R → List Q
  | .done _ => []
  | .ask question next => question :: (next (world question)).asked world

def through {Q' : Type} {B : Q' → Type} (front : ∀ question, Dialogue B (A question)) :
    Dialogue A R → Dialogue B R
  | .done result => .done result
  | .ask question next => (front question).bind fun answer => (next answer).through front

variable (world : ∀ question, A question)

@[simp] theorem run_bind (dialogue : Dialogue A R) (later : R → Dialogue A S) :
    (dialogue >>= later).run world = (later (dialogue.run world)).run world := by
  induction dialogue with
  | done result => rfl
  | ask question next ih => exact ih (world question)

@[simp] theorem asked_bind (dialogue : Dialogue A R) (later : R → Dialogue A S) :
    (dialogue >>= later).asked world =
      dialogue.asked world ++ (later (dialogue.run world)).asked world := by
  induction dialogue with
  | done result => rfl
  | ask question next ih => exact congrArg (question :: ·) (ih (world question))

theorem through_bind {Q' : Type} {B : Q' → Type} (front : ∀ question, Dialogue B (A question))
    (dialogue : Dialogue A R) (later : R → Dialogue A S) : (dialogue >>= later).through front =
      dialogue.through front >>= fun result => (later result).through front := by
  have assoc {T U : Type} (first : Dialogue B T) (second : T → Dialogue B U)
      (third : U → Dialogue B S) :
      (first.bind second).bind third = first.bind fun result => (second result).bind third := by
    induction first with
    | done result => rfl
    | ask question next ih => exact congrArg (Dialogue.ask question) (funext ih)
  induction dialogue with
  | done result => rfl
  | ask question next ih =>
    refine Eq.trans ?_ (assoc (front question) (fun answer => (next answer).through front)
      fun result => (later result).through front).symm
    exact congrArg (Dialogue.bind (front question)) (funext ih)

variable {world}

theorem eq_of_agree {other : ∀ question, A question} (dialogue : Dialogue A R)
    (agree : ∀ question ∈ dialogue.asked world, other question = world question) :
    dialogue.run other = dialogue.run world ∧ dialogue.asked other = dialogue.asked world := by
  induction dialogue with
  | done result => exact ⟨rfl, rfl⟩
  | ask question next ih =>
    have same : other question = world question := agree question List.mem_cons_self
    obtain ⟨result, questions⟩ := ih (world question) fun later member =>
      agree later (List.mem_cons_of_mem question member)
    unfold run asked
    rw [same]
    exact ⟨result, congrArg (question :: ·) questions⟩

section

variable {T : Type} (perform other : ∀ question, T → A question × T)

def runWith : Dialogue A R → T → R × T
  | .done result, state => (result, state)
  | .ask question next, state =>
    (next (perform question state).1).runWith (perform question state).2

variable {perform other} (Ok : T → Prop) (back : ∀ question state,
  Ok (perform question state).2 → Ok state)
include back

private theorem ok_of_runWith (dialogue : Dialogue A R) (state : T)
    (ok : Ok (dialogue.runWith perform state).2) : Ok state := by
  induction dialogue generalizing state with
  | done result => exact ok
  | ask question next ih => exact back question state (ih _ _ ok)

theorem runWith_eq (step : ∀ question state, Ok (perform question state).2 →
    other question state = perform question state) (dialogue : Dialogue A R) (state : T)
    (ok : Ok (dialogue.runWith perform state).2) :
    dialogue.runWith other state = dialogue.runWith perform state := by
  induction dialogue generalizing state with
  | done result => rfl
  | ask question next ih =>
    have same := step question state (ok_of_runWith Ok back _ _ ok)
    rw [runWith, runWith, same]
    exact ih _ _ ok

end

end Dialogue

end SolidChecker.Foundation
