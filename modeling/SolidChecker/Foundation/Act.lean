/- digest: Stateful computations that may fail, with rules of pre- and postconditions. -/

import Mathlib.Init

namespace SolidChecker.Foundation

def Act (σ ε α : Type*) := σ → Except ε α × σ

namespace Act

universe u

variable {σ ε : Type*} {α β : Type u}

instance : Monad (Act σ ε) where
  pure a := fun s => (.ok a, s)
  bind act next := fun s =>
    match act s with
    | (.ok a, s) => next a s
    | (.error e, s) => (.error e, s)

def read (view : σ → α) : Act σ ε α := fun s => (.ok (view s), s)

def modify (change : σ → σ) : Act σ ε PUnit := fun s => (.ok ⟨⟩, change s)

def throw (e : ε) : Act σ ε α := fun s => (.error e, s)

def catching (act : Act σ ε α) (handler : ε → Act σ ε α) : Act σ ε α := fun s =>
  match act s with
  | (.ok a, s) => (.ok a, s)
  | (.error e, s) => handler e s

def ofExcept (result : Except ε α) : Act σ ε α := fun s => (result, s)

def zoom {τ : Type*} (part : σ → τ) (replace : σ → τ → σ) (act : Act τ ε α) : Act σ ε α := fun s =>
  ((act (part s)).1, replace s (act (part s)).2)

variable {act : Act σ ε α}

theorem bind_of_ok {s t : σ} {a : α} (returned : act s = (.ok a, t))
    (next : α → Act σ ε β) : (act >>= next) s = next a t := by
  show (match act s with
    | (.ok a, s) => next a s
    | (.error e, s) => (.error e, s)) = _
  rw [returned]

theorem bind_of_error {s t : σ} {e : ε} (failed : act s = (.error e, t))
    (next : α → Act σ ε β) : (act >>= next) s = (.error e, t) := by
  show (match act s with
    | (.ok a, s) => next a s
    | (.error e, s) => (.error e, s)) = _
  rw [failed]

def Meets (pre : σ → Prop) (act : Act σ ε α) (post : Except ε α → σ → Prop) : Prop :=
  ∀ s, pre s → post (act s).1 (act s).2

namespace Meets

variable {pre : σ → Prop} {post : Except ε α → σ → Prop}

theorem pure {a : α} (holds : ∀ s, pre s → post (.ok a) s) : Meets pre (Pure.pure a) post := holds

theorem throw {e : ε} (holds : ∀ s, pre s → post (.error e) s) :
    Meets pre (Act.throw e) post := holds

variable {after : Except ε β → σ → Prop} {next : α → Act σ ε β}

theorem read_bind {view : σ → α} (rest : ∀ a, Meets (fun s => pre s ∧ view s = a) (next a) after) :
    Meets pre (Act.read view >>= next) after := fun s holds => rest (view s) s ⟨holds, rfl⟩

theorem modify_bind {change : σ → σ} {next : PUnit → Act σ ε β} (changed : σ → Prop)
    (moves : ∀ s, pre s → changed (change s)) (rest : Meets changed (next ⟨⟩) after) :
    Meets pre (Act.modify change >>= next) after :=
  fun s holds => rest (change s) (moves s holds)

theorem modify {change : σ → σ} {post : Except ε PUnit → σ → Prop}
    (holds : ∀ s, pre s → post (.ok ⟨⟩) (change s)) : Meets pre (Act.modify change) post := holds

theorem weaken {stronger : σ → Prop} {weaker : Except ε α → σ → Prop} (meets : Meets pre act post)
    (before : ∀ s, stronger s → pre s) (after : ∀ r s, post r s → weaker r s) :
    Meets stronger act weaker := fun s holds => after _ _ (meets s (before s holds))

theorem strengthen {stronger : σ → Prop} (meets : Meets pre act post)
    (before : ∀ s, stronger s → pre s) : Meets stronger act post := meets.weaken before fun _ _ met => met

theorem relax {weaker : Except ε α → σ → Prop} (meets : Meets pre act post)
    (after : ∀ r s, post r s → weaker r s) : Meets pre act weaker := meets.weaken (fun _ held => held) after

theorem bind (between : Except ε α → σ → Prop) (first : Meets pre act between)
    (failed : ∀ e s, between (.error e) s → after (.error e) s)
    (second : ∀ a, Meets (between (.ok a)) (next a) after) : Meets pre (act >>= next) after := by
  intro s holds
  have reached := first s holds
  show after (match act s with
    | (.ok a, s) => next a s
    | (.error e, s) => (.error e, s)).1 (match act s with
    | (.ok a, s) => next a s
    | (.error e, s) => (.error e, s)).2
  generalize act s = outcome at reached ⊢
  obtain ⟨result, s⟩ := outcome
  cases result with
  | error e => exact failed e s reached
  | ok a => exact second a s reached

theorem catching {handler : ε → Act σ ε α} {after : Except ε α → σ → Prop}
    (between : Except ε α → σ → Prop) (first : Meets pre act between)
    (succeeded : ∀ a s, between (.ok a) s → after (.ok a) s)
    (second : ∀ e, Meets (between (.error e)) (handler e) after) :
    Meets pre (act.catching handler) after := by
  intro s holds
  have reached := first s holds
  unfold Act.catching
  generalize act s = outcome at reached ⊢
  obtain ⟨result, s⟩ := outcome
  cases result with
  | error e => exact second e s reached
  | ok a => exact succeeded a s reached

variable {result : Except ε α}

theorem ofExcept (holds : ∀ s, pre s → post result s) :
    Meets pre (Act.ofExcept result) post := holds

theorem ofExcept_bind (failed : ∀ e, result = .error e → ∀ s, pre s → after (.error e) s)
    (second : ∀ a, result = .ok a → Meets pre (next a) after) :
    Meets pre (Act.ofExcept result >>= next) after := by
  cases result with
  | error e => exact failed e rfl
  | ok a => exact second a rfl

theorem pull {fact : Prop} (meets : fact → Meets pre act post) :
    Meets (fun s => fact ∧ pre s) act post := fun s holds => meets holds.1 s holds.2

theorem and {other : σ → Prop} {more : Except ε α → σ → Prop} (meets : Meets pre act post)
    (also : Meets other act more) :
    Meets (fun s => pre s ∧ other s) act fun r s => post r s ∧ more r s :=
  fun s holds => ⟨meets s holds.1, also s holds.2⟩

end Meets

def Stays (kept : σ → Prop) (act : Act σ ε α) : Prop := Meets kept act fun _ => kept

namespace Stays

variable {kept : σ → Prop}

theorem pure (a : α) : Stays kept (Pure.pure a : Act σ ε α) := fun _ holds => holds

theorem throw (e : ε) : Stays kept (Act.throw e : Act σ ε α) := fun _ holds => holds

theorem read (view : σ → α) : Stays kept (Act.read view : Act σ ε α) := fun _ holds => holds

theorem ofExcept (result : Except ε α) : Stays kept (Act.ofExcept result) := fun _ holds => holds

theorem catching {handler : ε → Act σ ε α} (first : Stays kept act)
    (second : ∀ e, Stays kept (handler e)) : Stays kept (act.catching handler) :=
  Meets.catching (fun _ => kept) first (fun _ _ holds => holds) second

theorem bind {next : α → Act σ ε β} (first : Stays kept act)
    (second : ∀ a, Stays kept (next a)) : Stays kept (act >>= next) :=
  Meets.bind (fun _ => kept) first (fun _ _ holds => holds) second

end Stays

/-- What is met where something is known is met where it still is: it stays unknown. -/
theorem Meets.under {pre known : σ → Prop} {post : Except ε α → σ → Prop} (meets : Meets pre act post)
    (back : Stays (fun s => ¬ known s) act) :
    Meets (fun s => known s → pre s) act fun r s => known s → post r s :=
  fun s holds knows => meets s (holds (Classical.byContradiction fun no => back s no knows))

def Frames {V : Type*} (view : σ → V) (act : Act σ ε α) : Prop := ∀ s, view (act s).2 = view s

namespace Frames

variable {V : Type*} {view : σ → V}

theorem pure (a : α) : Frames view (Pure.pure a : Act σ ε α) := fun _ => rfl

theorem throw (e : ε) : Frames view (Act.throw e : Act σ ε α) := fun _ => rfl

theorem ofExcept (result : Except ε α) : Frames view (Act.ofExcept result) := fun _ => rfl

theorem read (look : σ → α) : Frames view (Act.read look : Act σ ε α) := fun _ => rfl

private theorem modify {change : σ → σ} (keeps : ∀ s, view (change s) = view s) :
    Frames view (Act.modify change : Act σ ε PUnit) := keeps

theorem zoom {τ : Type*} {part : σ → τ} {replace : σ → τ → σ} (act : Act τ ε α)
    (keeps : ∀ s t, view (replace s t) = view s) : Frames view (Act.zoom part replace act) :=
  fun s => keeps s _

theorem meets (frames : Frames view act) (held : V) :
    Meets (fun s => view s = held) act fun _ s => view s = held := fun s same =>
  (frames s).trans same

theorem bind {next : α → Act σ ε β} (frames : Frames view act) (later : ∀ a, Frames view (next a)) :
    Frames view (act >>= next) := fun s =>
  (Stays.bind (frames.meets _) fun a => (later a).meets _) s rfl

theorem modify_bind {change : σ → σ} {next : PUnit → Act σ ε β}
    (keeps : ∀ s, view (change s) = view s) (later : Frames view (next ⟨⟩)) :
    Frames view (Act.modify change >>= next) := bind (modify keeps) fun _ => later

end Frames

def Yields (pre : σ → Prop) (act : Act σ ε α) (post : α → σ → Prop) : Prop :=
  ∀ s, pre s → ∀ a, (act s).1 = .ok a → post a (act s).2

namespace Yields

variable {pre : σ → Prop} {post : α → σ → Prop}

theorem pure {a : α} (holds : ∀ s, pre s → post a s) :
    Yields pre (Pure.pure a : Act σ ε α) post := by
  intro s start b returned
  cases returned
  exact holds s start

theorem throw {e : ε} : Yields pre (Act.throw e : Act σ ε α) post :=
  fun _ _ _ returned => nomatch returned

theorem ofExcept {result : Except ε α} (holds : ∀ a, result = .ok a → ∀ s, pre s → post a s) :
    Yields pre (Act.ofExcept result) post := fun s start a returned => holds a returned s start

variable {after : β → σ → Prop} {next : α → Act σ ε β}

theorem read_bind {view : σ → α} (rest : ∀ a, Yields (fun s => pre s ∧ view s = a) (next a) after) :
    Yields pre (Act.read view >>= next) after := fun s holds => rest (view s) s ⟨holds, rfl⟩

theorem modify_bind {change : σ → σ} {next : PUnit → Act σ ε β} (changed : σ → Prop)
    (moves : ∀ s, pre s → changed (change s)) (rest : Yields changed (next ⟨⟩) after) :
    Yields pre (Act.modify change >>= next) after :=
  fun s holds => rest (change s) (moves s holds)

theorem weaken {stronger : σ → Prop} {weaker : α → σ → Prop} (yields : Yields pre act post)
    (before : ∀ s, stronger s → pre s) (after : ∀ a s, post a s → weaker a s) :
    Yields stronger act weaker :=
  fun s holds a returned => after _ _ (yields s (before s holds) a returned)

theorem bind (between : α → σ → Prop) (first : Yields pre act between)
    (second : ∀ a, Yields (between a) (next a) after) : Yields pre (act >>= next) after := by
  intro s holds b returned
  have reached := first s holds
  replace returned : (match act s with
    | (.ok a, s) => next a s
    | (.error e, s) => (.error e, s)).1 = .ok b := returned
  show after b (match act s with
    | (.ok a, s) => next a s
    | (.error e, s) => (.error e, s)).2
  generalize act s = outcome at reached returned ⊢
  obtain ⟨result, s⟩ := outcome
  cases result with
  | error e => exact nomatch returned
  | ok a => exact second a s (reached a rfl) b returned

theorem catching {handler : ε → Act σ ε α} (first : Yields pre act post)
    (gives_up : ∀ e s a, (handler e s).1 ≠ .ok a) : Yields pre (act.catching handler) post := by
  intro s holds a returned
  have reached := first s holds
  unfold Act.catching at returned ⊢
  generalize act s = outcome at reached returned ⊢
  obtain ⟨result, s⟩ := outcome
  cases result with
  | error e => exact absurd returned (gives_up e s a)
  | ok b => exact reached a returned

end Yields

end Act

end SolidChecker.Foundation
