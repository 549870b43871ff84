/- source: solid-facts-backend/src/lib.rs -/

import SolidChecker.Backend.Session

namespace SolidChecker.Backend.NativeSession

open Foundation (Act)
open Foundation.Act (Frames)
open Producer (Path)

variable {S O A C R F B I ε τ V : Type}

structure Blind (view : NativeSession S O A C R F B I τ → V) : Prop where
  typescript : ∀ session typescript, view { session with typescript } = view session

variable {view : NativeSession S O A C R F B I τ → V} (blind : Blind view)

include blind

theorem ask_frames {α : Type} (act : Act τ (BackendError ε) α) :
    Frames view (ask act) := .zoom act blind.typescript

variable (ts : TypeFacts S A C R F B I ε τ)

theorem checkCancelled_frames (cancellable : Bool) :
    Frames view (checkCancelled ts cancellable) := by
  unfold checkCancelled
  split
  · refine (ask_frames blind _).bind fun raised => ?_
    split
    · exact .throw _
    · exact .pure _
  · exact .pure _

private theorem attestImportIdentities_frames (scope : List Path) :
    Frames view (attestImportIdentities ts scope) :=
  (ask_frames blind _).bind fun _ => .pure _

private theorem keptAttestation_frames (facts : ProjectFacts S A C F B I) (scope edited : List Path) :
    Frames view (keptAttestation ts facts scope edited) := by
  refine (Frames.read _).bind fun session => ?_
  split
  · exact .pure _
  · split
    · exact .pure _
    · split
      · exact .pure _
      · split
        · exact .pure _
        · refine (ask_frames blind _).bind fun graph => ?_
          split
          · exact .pure _
          · exact .pure _

private theorem firstAttestation_frames (facts : ProjectFacts S A C F B I) (scope : List Path)
    (edited : Option (List Path)) :
    Frames view (firstAttestation ts facts scope edited) := by
  refine .bind ?_ fun kept => ?_
  · cases edited with
    | none => exact .pure _
    | some edited => exact keptAttestation_frames blind ts facts scope edited
  · cases kept with
    | none => exact attestImportIdentities_frames blind ts scope
    | some kept => exact .pure _

section

variable (unstamped : ∀ session attestedEpoch, view { session with attestedEpoch } = view session)

include unstamped

private theorem attestAgain_frames (scope : List Path) (epoch : ℕ) :
    Frames view (attestAgain ts scope epoch) := by
  refine (attestImportIdentities_frames blind ts scope).bind fun index => (Frames.read _).bind
    fun again => ?_
  split
  · exact .modify_bind (fun _ => unstamped _ _) (.throw _)
  · exact .pure _

theorem attested_frames (facts : ProjectFacts S A C F B I) (edited : Option (List Path)) :
    Frames view (attested ts facts edited) := by
  refine (ask_frames blind _).bind fun _ => ?_
  split
  · exact .pure _
  · refine .bind ?_ fun index => .modify_bind (fun _ => unstamped _ _) (.pure _)
    refine (Frames.read _).bind fun epoch => (firstAttestation_frames blind ts facts _ edited).bind
      fun index => (Frames.read _).bind fun after => ?_
    split
    · exact attestAgain_frames blind ts unstamped _ after
    · exact .pure _

end

omit blind

structure BuildBlind (view : NativeSession S O A C R F B I τ → V) : Prop extends Blind view where
  cache : ∀ session cache, view { session with cache } = view session
  built : ∀ session built, view { session with built } = view session

theorem buildProject_frames (blind : BuildBlind view) (tools : Tools S O A C R F ε) (generation : ℕ)
    (cancellable : Bool) (retained : Option (Retained S A C)) :
    Frames view (buildProject tools ts generation cancellable retained) := by
  have polled := checkCancelled_frames (O := O) blind.toBlind ts cancellable
  have cached : ∀ {α : Type} (act : Stage A C R F ε α),
      Frames view (withCache act) := fun act =>
    .zoom act fun _ _ => blind.cache _ _
  refine (Frames.read _).bind fun session => polled.bind fun _ => ?_
  refine (cached _).bind fun asts => polled.bind fun _ => ?_
  refine (cached _).bind fun executions => polled.bind fun _ => ?_
  refine (Frames.ofExcept _).bind fun made => polled.bind fun _ => ?_
  refine (cached _).bind fun groups => ?_
  refine .modify_bind (fun _ => blind.built _ _) ((ask_frames blind.toBlind _).bind fun table => ?_)
  refine polled.bind fun _ => (cached _).bind fun rows => ?_
  exact (Frames.ofExcept _).bind fun files => Frames.pure _

end SolidChecker.Backend.NativeSession
