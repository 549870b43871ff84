/- source: solid-facts-backend/src/lib.rs -/

import SolidChecker.Backend.Session

namespace SolidChecker.Backend.NativeSession

open Foundation (Act)
open Foundation.Act (Meets Stays)

variable {S O A C R F B I ε τ T : Type} {tools : Tools S O A C R F ε}
  {ts : TypeFacts S A C R F B I ε τ} {wire : List (WireChange S)} {cancellable : Bool}

theorem analyzeWithRecovery_meets {pre : NativeSession S O A C R F B I τ → Prop}
    {post : Except (BackendError ε) (ProjectFacts S A C F B I) → NativeSession S O A C R F B I τ → Prop}
    (once : Meets pre (analyze tools ts cancellable) post)
    (again : ∀ error session, post (.error error) session → pre session) (attempts : ℕ) :
    Meets pre (analyzeWithRecovery tools ts cancellable attempts) post := by
  induction attempts with
  | zero => exact once
  | succ attempts ih =>
    refine .catching _ once (fun _ _ done => done) fun error => ?_
    split
    · exact ih.strengthen (again error)
    · exact .throw fun _ failed => failed

/-- The rule of the loop: `going` holds of an edit under way, `landed` of one whose update landed,
and `made` of the facts an attempt builds. -/
structure EditRule (tools : Tools S O A C R F ε) (ts : TypeFacts S A C R F B I ε τ)
    (nextGeneration : ℕ) (wire : List (WireChange S)) (displaced : List (Displaced S O))
    (cancellable : Bool) (going landed : Editing S O A C R F B I τ T → Prop)
    (made : ProjectFacts S A C F B I → Prop)
    (ended : Except (BackendError ε) (Edited S A C F B I T) → Editing S O A C R F B I τ T → Prop) :
    Prop where
  landed_iff : ∀ editing, landed editing ↔ going editing ∧ editing.updateLanded = true
  started : ∀ editing, going editing → going { editing with during := none }
  sent : Meets (fun editing => going editing ∧ editing.updateLanded = false)
    (onSession (ask (ts.updateDuring wire))) fun result editing => match result with
      | .error _ => going editing
      | .ok _ => ∀ overlapped, landed { editing with updateLanded := true, overlapped }
  polled : Stays landed (onSession (checkCancelled ts cancellable))
  built : ∀ session, Meets (fun editing => landed editing ∧ editing.session = session)
    (onSession (buildProject tools ts nextGeneration cancellable
      ((session.lastFacts.filter fun facts => decide (facts.generation = session.generation)).map
        fun facts => ⟨facts.files, wire.map WireChange.path⟩)))
    fun result editing => landed editing ∧ ∀ facts, result = .ok facts → made facts
  followed : ∀ editing, landed editing → landed { editing with
    session := { editing.session with generation := nextGeneration } }
  finished : ∀ facts, made facts → Meets (fun editing => landed editing ∧
    editing.session.generation = nextGeneration) (finishEdit ts wire facts) ended
  settled : ∀ result editing, landed editing → editing.session.generation = nextGeneration →
    (∀ facts overlapped, result ≠ .ok (.facts facts overlapped)) → ended result editing
  undone : ∀ error editing, going editing → editing.updateLanded = false →
    ended (.error error) { editing with session := restoreOverlay displaced editing.session }

namespace EditRule

variable {nextGeneration : ℕ} {displaced : List (Displaced S O)}
  {going landed : Editing S O A C R F B I τ T → Prop} {made : ProjectFacts S A C F B I → Prop}
  {ended : Except (BackendError ε) (Edited S A C F B I T) → Editing S O A C R F B I τ T → Prop}
  (rule : EditRule tools ts nextGeneration wire displaced cancellable going landed made ended)

include rule

private theorem landUpdate (abandon : T → Bool) :
    Meets going (landUpdate ts wire cancellable abandon) fun result editing =>
      going editing ∧ ((∃ error, result = .error error) ∨ landed editing) := by
  refine .read_bind fun already => ?_
  split
  · next already => exact .pure fun editing held =>
      ⟨held.1, .inr ((rule.landed_iff editing).mpr ⟨held.1, held.2.trans already⟩)⟩
  · next unlanded =>
      rw [Bool.not_eq_true] at unlanded
      subst unlanded
      refine .read_bind fun work => .modify_bind
        (fun editing => going editing ∧ editing.updateLanded = false)
        (fun editing held => ⟨rule.started editing held.1.1, held.1.2⟩) ?_
      refine .bind _ rule.sent (fun error editing held => ⟨held, .inl ⟨error, rfl⟩⟩) fun _ => ?_
      refine .modify_bind landed (fun editing held => held _) ?_
      refine .bind (fun _ => landed) rule.polled
        (fun error editing held => ⟨((rule.landed_iff editing).mp held).1, .inl ⟨error, rfl⟩⟩)
        fun _ => ?_
      exact .read_bind fun overlapped => .pure fun editing held =>
        ⟨((rule.landed_iff editing).mp held.1).1, .inr held.1⟩

private theorem editAttempt (abandon : T → Bool) :
    Meets going (editAttempt tools ts nextGeneration wire cancellable abandon) fun result editing =>
      going editing ∧ ((∃ error, result = .error error) ∨ landed editing) ∧
        ∀ facts, result = .ok (.inr facts) → made facts := by
  refine .bind _ (rule.landUpdate abandon)
    (fun error editing held => ⟨held.1, .inl ⟨error, rfl⟩, nofun⟩) fun abandoned => ?_
  suffices rest : Meets landed _ _ from rest.strengthen
    (fun editing held => held.2.resolve_left fun ⟨_, failed⟩ => nomatch failed)
  split
  · exact .pure fun editing held =>
      ⟨((rule.landed_iff editing).mp held).1, .inr held, nofun⟩
  · refine .read_bind fun session => .bind _ (rule.built session)
      (fun error editing held => ⟨((rule.landed_iff editing).mp held.1).1, .inl ⟨error, rfl⟩, nofun⟩)
      fun facts => .pure fun editing held =>
        ⟨((rule.landed_iff editing).mp held.1).1, .inr held.1, fun other same => ?_⟩
    cases same
    exact held.2 _ rfl

private theorem followUpdate {editing : Editing S O A C R F B I τ T} (under_way : going editing) :
    going (followUpdate nextGeneration editing) ∧
      (landed editing → landed (NativeSession.followUpdate nextGeneration editing)) ∧
      ((NativeSession.followUpdate nextGeneration editing).updateLanded →
        landed (NativeSession.followUpdate nextGeneration editing) ∧
        (NativeSession.followUpdate nextGeneration editing).session.generation = nextGeneration) := by
  unfold NativeSession.followUpdate
  split
  · next flag =>
      have after := rule.followed editing ((rule.landed_iff editing).mpr ⟨under_way, flag⟩)
      exact ⟨((rule.landed_iff _).mp after).1, fun _ => after, fun _ => ⟨after, rfl⟩⟩
  · next flag => exact ⟨under_way, id, fun landed => absurd landed flag⟩

private theorem editOnce (abandon : T → Bool)
    {again : Option (EditStep S O A C R F B I ε τ T (Edited S A C F B I T))}
    (retried : ∀ step, again = some step → Meets going step ended) :
    Meets going (editOnce tools ts nextGeneration wire displaced cancellable abandon again)
      ended := by
  intro editing under_way
  obtain ⟨kept, succeeded, facts_made⟩ := rule.editAttempt abandon editing under_way
  unfold NativeSession.editOnce
  generalize NativeSession.editAttempt tools ts nextGeneration wire cancellable abandon editing =
    attempt at kept succeeded facts_made ⊢
  obtain ⟨result, attempted⟩ := attempt
  obtain ⟨followed, landing, reached⟩ := rule.followUpdate kept
  simp only at succeeded facts_made followed landing reached ⊢
  generalize NativeSession.followUpdate nextGeneration attempted = after
    at followed landing reached ⊢
  have done : (∃ value, result = .ok value) → landed after ∧
      after.session.generation = nextGeneration := by
    rintro ⟨value, rfl⟩
    have here := landing (succeeded.resolve_left fun ⟨_, failed⟩ => nomatch failed)
    exact reached ((rule.landed_iff after).mp here).2
  cases result with
  | ok value =>
    obtain ⟨here, generation⟩ := done ⟨value, rfl⟩
    cases value with
    | inl made => exact rule.settled _ after here generation nofun
    | inr facts => exact rule.finished facts (facts_made facts rfl) after ⟨here, generation⟩
  | error error =>
    cases retry : again.filter fun _ => isTypefactsTransportFailure ts error with
    | some step =>
      simp only [retry]
      exact retried step (Option.filter_eq_some_iff.mp retry).1 after followed
    | none =>
      cases flag : after.updateLanded with
      | true =>
        simp only [retry, if_true]
        obtain ⟨here, generation⟩ := reached flag
        exact rule.settled _ after here generation nofun
      | false =>
        simp only [retry, Bool.false_eq_true, if_false]
        exact flag ▸ rule.undone error after followed flag

theorem editLoop (abandon : T → Bool) (attempts : ℕ) :
    Meets going (editLoop tools ts nextGeneration wire displaced cancellable abandon attempts)
      ended := by
  induction attempts with
  | zero => exact rule.editOnce abandon fun step none_left => nomatch none_left
  | succ attempts ih => exact rule.editOnce abandon fun step left => Option.some.inj left ▸ ih

end EditRule

end SolidChecker.Backend.NativeSession
