/- source: solid-facts-backend/src/lib.rs -/

import SolidChecker.Backend.EditLoop
import SolidChecker.Backend.Frames

namespace SolidChecker.Backend.NativeSession

open List

open Foundation (Act)
open Foundation.Act (Frames Meets Stays)
open Foundation.Table (lookup_insert_eq lookup_erase_eq)
open Producer (Path)

variable {S O A C R F B I ε τ T : Type}
  (tools : Tools S O A C R F ε) (ts : TypeFacts S A C R F B I ε τ)

/-- What an edit promises its caller about: sources, program digests and generation. -/
abbrev Overlay (S O : Type) :=
  (Finmap fun _ : Path => SourceFile S O) × (Finmap fun _ : Path => Key) × ℕ

def overlay (session : NativeSession S O A C R F B I τ) : Overlay S O :=
  (session.sources, session.programHashes, session.generation)

theorem overlay_blind : BuildBlind (overlay : NativeSession S O A C R F B I τ → Overlay S O) :=
  ⟨⟨fun _ _ => rfl⟩, fun _ _ => rfl, fun _ _ => rfl⟩

private theorem analyze_frames (cancellable : Bool) :
    Frames overlay (analyze tools ts cancellable) := by
  refine (checkCancelled_frames overlay_blind.toBlind ts cancellable).bind fun _ => (Frames.read _).bind
    fun session => ?_
  split
  · exact .pure _
  · refine (buildProject_frames ts overlay_blind tools _ _ _).bind fun facts => ?_
    refine (attested_frames overlay_blind.toBlind ts (fun _ _ => rfl) facts none).bind fun facts => ?_
    exact .modify_bind (fun _ => rfl) (.pure _)

section

/-- An edit whose changes are applied; before its update lands the generation is the old one. -/
def Ahead (applied : Overlay S O) (editing : Editing S O A C R F B I τ T) : Prop :=
  editing.session.sources = applied.1 ∧ editing.session.programHashes = applied.2.1 ∧
    (editing.updateLanded = false → editing.session.generation = applied.2.2)

variable {applied : Overlay S O}

private theorem onSession_ahead {α : Type} {step : Step S O A C R F B I ε τ α} (frames : Frames overlay step)
    (landed : Bool) : Stays (fun editing : Editing S O A C R F B I τ T => Ahead applied editing ∧
        editing.updateLanded = landed) (onSession step) := by
  rintro editing ⟨⟨sources, hashes, generation⟩, same⟩
  have held := frames editing.session
  simp only [overlay, Prod.mk.injEq] at held
  exact ⟨⟨held.1.trans sources, held.2.1.trans hashes, fun unlanded =>
    held.2.2.trans (generation unlanded)⟩, same⟩

/-- Where an edit ends: landed with everything applied and the next generation, or failed with
everything displaced put back. -/
def Ends (applied : Overlay S O) (nextGeneration : ℕ) (displaced : List (Displaced S O)) {α : Type}
    (result : Except (BackendError ε) α) (editing : Editing S O A C R F B I τ T) : Prop :=
  (editing.updateLanded = true → overlay editing.session =
    (applied.1, applied.2.1, nextGeneration)) ∧
  (editing.updateLanded = false → (∃ error, result = .error error) ∧
    ∃ session, overlay session = applied ∧ editing.session = restoreOverlay displaced session)

private theorem onSession_ends {α : Type} {step : Step S O A C R F B I ε τ α}
    (frames : Frames overlay step) (held : Overlay S O) :
    Stays (fun editing : Editing S O A C R F B I τ T => overlay editing.session = held ∧
        editing.updateLanded) (onSession step) :=
  fun editing same => ⟨(frames editing.session).trans same.1, same.2⟩

private theorem finishEdit_ends (wire : List (WireChange S)) (facts : ProjectFacts S A C F B I)
    (held : Overlay S O) :
    Stays (fun editing : Editing S O A C R F B I τ T => overlay editing.session = held ∧
        editing.updateLanded) (finishEdit ts wire facts) := by
  refine .bind (onSession_ends
    (attested_frames overlay_blind.toBlind ts (fun _ _ => rfl) facts _) held) fun facts => ?_
  exact .modify_bind _ (fun editing same => same) (.read_bind fun _ =>
    .pure fun editing same => same.1)

private theorem edit_rule (nextGeneration : ℕ) (wire : List (WireChange S))
    (displaced : List (Displaced S O)) (cancellable : Bool) :
    EditRule (T := T) tools ts nextGeneration wire displaced cancellable (Ahead applied)
      (fun editing => Ahead applied editing ∧ editing.updateLanded) (fun _ => True)
      (Ends applied nextGeneration displaced) where
  landed_iff _ := .rfl
  started _ ahead := ahead
  sent := by
    refine (onSession_ahead (ask_frames overlay_blind.toBlind _) false).relax ?_
    rintro (error | _) editing ⟨ahead, -⟩
    · exact ahead
    · exact fun _ => ⟨⟨ahead.1, ahead.2.1, fun landed => nomatch landed⟩, rfl⟩
  polled := onSession_ahead (checkCancelled_frames overlay_blind.toBlind ts cancellable) true
  built _ := (onSession_ahead (buildProject_frames ts overlay_blind tools _ _ _) true).weaken
    (fun _ held => held.1) fun _ _ held => ⟨held, fun _ _ => trivial⟩
  followed := fun _ ⟨ahead, flag⟩ => ⟨⟨ahead.1, ahead.2.1, fun unlanded =>
    absurd (flag.symm.trans unlanded) (by decide)⟩, flag⟩
  finished facts _ editing held := by
    obtain ⟨⟨ahead, flag⟩, generation⟩ := held
    obtain ⟨same, still⟩ := finishEdit_ends ts wire facts (applied.1, applied.2.1, nextGeneration)
      editing ⟨Prod.ext ahead.1 (Prod.ext ahead.2.1 generation), flag⟩
    exact ⟨fun _ => same, fun unlanded => absurd (still.symm.trans unlanded) (by decide)⟩
  settled result editing held generation _ := ⟨fun _ => Prod.ext held.1.1
    (Prod.ext held.1.2.1 generation), fun unlanded => absurd (held.2.symm.trans unlanded) (by decide)⟩
  undone error editing ahead flag := ⟨fun landed => absurd (landed.symm.trans flag) (by decide),
    fun _ => ⟨⟨error, rfl⟩, editing.session, Prod.ext ahead.1 (Prod.ext ahead.2.1 (ahead.2.2 flag)),
      rfl⟩⟩

end

section

variable (sources : Finmap fun _ : Path => SourceFile S O)

def applySource (change : SourceChange S O) : Finmap fun _ : Path => SourceFile S O :=
  match change.source with
  | some source => sources.insert change.path ⟨change.path, source, change.compilerOptions⟩
  | none => sources.erase change.path

def applySources (changes : List (SourceChange S O)) : Finmap fun _ : Path => SourceFile S O :=
  changes.foldl applySource sources

def beforeLast (path : Path) : List (SourceChange S O) →
    (Finmap fun _ : Path => SourceFile S O) → Option (SourceFile S O)
  | [], sources => sources.lookup path
  | change :: changes, sources =>
    if path ∈ changes.map SourceChange.path then
      beforeLast path changes (applySource sources change)
    else sources.lookup path

/-- Before its last change every path still has, or has again, the source it had before the edit. -/
def Restorable (changes : List (SourceChange S O)) : Prop :=
  ∀ path, beforeLast path changes sources = sources.lookup path

variable {path : Path}

theorem applySource_lookup_of_ne {change : SourceChange S O} (other : path ≠ change.path) :
    (applySource sources change).lookup path = sources.lookup path := by
  unfold applySource
  split
  · exact Finmap.lookup_insert_of_ne _ other
  · exact Finmap.lookup_erase_ne other

theorem applySources_lookup_of_notMem {changes : List (SourceChange S O)} :
    path ∉ changes.map SourceChange.path → ∀ sources : Finmap fun _ : Path => SourceFile S O,
      (applySources sources changes).lookup path = sources.lookup path := by
  induction changes with
  | nil => exact fun _ _ => rfl
  | cons change changes ih =>
    intro absent sources
    rw [map_cons, mem_cons, not_or] at absent
    exact (ih absent.2 _).trans (applySource_lookup_of_ne sources absent.1)

private theorem beforeLast_of_notMem {changes : List (SourceChange S O)}
    (absent : path ∉ changes.map SourceChange.path) (sources : Finmap fun _ : Path => SourceFile S O) :
    beforeLast path changes sources = sources.lookup path := by
  cases changes with
  | nil => rfl
  | cons change changes =>
    exact if_neg fun listed => absent (mem_cons_of_mem _ listed)

variable (changes : List (SourceChange S O)) (session : NativeSession S O A C R F B I τ)

theorem applyOverlay_snd : (applyOverlay changes session).2 = changes.foldl applyChange session := by
  induction changes generalizing session with
  | nil => rfl
  | cons change changes ih => exact ih (applyChange session change)

theorem applyOverlay_sources :
    (applyOverlay changes session).2.sources = applySources session.sources changes := by
  induction changes generalizing session with
  | nil => rfl
  | cons change changes ih => exact ih (applyChange session change)

theorem applyOverlay_generation :
    (applyOverlay changes session).2.generation = session.generation := by
  induction changes generalizing session with
  | nil => rfl
  | cons change changes ih => exact ih (applyChange session change)

theorem applyOverlay_programHashes (path : Path) :
    (applyOverlay changes session).2.programHashes.lookup path =
      if path ∈ changes.map SourceChange.path then none else session.programHashes.lookup path := by
  induction changes generalizing session with
  | nil => rfl
  | cons change changes ih =>
    refine (ih (applyChange session change)).trans ?_
    show (if _ then none else (session.programHashes.erase change.path).lookup path) = _
    rw [lookup_erase_eq, map_cons]
    by_cases listed : path ∈ changes.map SourceChange.path
    · rw [if_pos listed, if_pos (mem_cons_of_mem _ listed)]
    · simp only [listed, if_false, mem_cons, or_false]

theorem restoreEntry_sources_lookup (held : NativeSession S O A C R F B I τ)
    (entry : Displaced S O) (path : Path) : (restoreEntry held entry).sources.lookup path =
      if path = entry.1 then entry.2.1 else held.sources.lookup path := by
  obtain ⟨changed, source, hash⟩ := entry
  cases source with
  | none => exact lookup_erase_eq _ _ _
  | some source => exact lookup_insert_eq _ _ _ _

private theorem restoreEntry_hashes_lookup (held : NativeSession S O A C R F B I τ)
    (entry : Displaced S O) (path : Path) : (restoreEntry held entry).programHashes.lookup path =
      if path = entry.1 then entry.2.2.or (held.programHashes.lookup path)
      else held.programHashes.lookup path := by
  obtain ⟨changed, source, hash⟩ := entry
  cases hash with
  | none => exact (ite_self _).symm
  | some hash => exact lookup_insert_eq _ _ _ _

private theorem restoreOverlay_sources (session held : NativeSession S O A C R F B I τ) (path : Path) :
    (restoreOverlay (applyOverlay changes session).1 held).sources.lookup path =
      if path ∈ changes.map SourceChange.path then beforeLast path changes session.sources
      else held.sources.lookup path := by
  induction changes generalizing session held with
  | nil => rfl
  | cons change changes ih =>
    refine (ih (applyChange session change) (restoreEntry held (displacedBy session change))).trans ?_
    rw [restoreEntry_sources_lookup, map_cons, beforeLast]
    by_cases listed : path ∈ changes.map SourceChange.path
    · rw [if_pos listed, if_pos (mem_cons_of_mem _ listed), if_pos listed]
      rfl
    · rw [if_neg listed, if_neg listed]
      by_cases same : path = change.path
      · rw [if_pos (mem_cons.mpr (.inl same)), same]
        exact if_pos rfl
      · rw [if_neg fun inside => (mem_cons.mp inside).elim same listed]
        exact if_neg same

private theorem restoreOverlay_hashes (session held : NativeSession S O A C R F B I τ) (path : Path) :
    (restoreOverlay (applyOverlay changes session).1 held).programHashes.lookup path =
      if path ∈ changes.map SourceChange.path then
        (session.programHashes.lookup path).or (held.programHashes.lookup path)
      else held.programHashes.lookup path := by
  induction changes generalizing session held with
  | nil => rfl
  | cons change changes ih =>
    refine (ih (applyChange session change) (restoreEntry held (displacedBy session change))).trans ?_
    have erased : (applyChange session change).programHashes.lookup path =
        if path = change.path then none else session.programHashes.lookup path :=
      lookup_erase_eq _ _ _
    have back : (restoreEntry held (displacedBy session change)).programHashes.lookup path =
        if path = change.path then
          (session.programHashes.lookup change.path).or (held.programHashes.lookup path)
        else held.programHashes.lookup path := restoreEntry_hashes_lookup held _ path
    rw [erased, back, map_cons]
    by_cases same : path = change.path
    · subst same
      simp
    · simp [same]

private theorem restoreOverlay_generation (displaced : List (Displaced S O))
    (session : NativeSession S O A C R F B I τ) :
    (restoreOverlay displaced session).generation = session.generation := by
  induction displaced generalizing session with
  | nil => rfl
  | cons entry displaced ih => exact ih (restoreEntry session entry)

theorem restoreOverlay_overlay_iff {session held : NativeSession S O A C R F B I τ}
    (applied : overlay held = overlay (applyOverlay changes session).2) :
    overlay (restoreOverlay (applyOverlay changes session).1 held) = overlay session ↔
      Restorable session.sources changes := by
  simp only [overlay, Prod.mk.injEq, applyOverlay_sources, applyOverlay_generation] at applied
  obtain ⟨sources, hashes, generation⟩ := applied
  have put : ∀ path, (restoreOverlay (applyOverlay changes session).1 held).sources.lookup path =
      beforeLast path changes session.sources := by
    intro path
    rw [restoreOverlay_sources]
    split
    · rfl
    · next absent =>
        rw [sources, applySources_lookup_of_notMem absent, beforeLast_of_notMem absent]
  have digests : (restoreOverlay (applyOverlay changes session).1 held).programHashes =
      session.programHashes := by
    refine Finmap.ext_lookup fun path => ?_
    rw [restoreOverlay_hashes, hashes, applyOverlay_programHashes]
    split
    · exact Option.or_none
    · rfl
  constructor
  · intro same path
    rw [← put path, (Prod.mk.inj same).1]
  · intro restorable
    refine Prod.ext ?_ (Prod.ext digests ((restoreOverlay_generation _ _).trans generation))
    exact Finmap.ext_lookup fun path => (put path).trans (restorable path)

end

section

def Editing.start (session : NativeSession S O A C R F B I τ) : Editing S O A C R F B I τ T :=
  ⟨session, false, none, none⟩

/-- An edit that fails before its update is acknowledged leaves the overlay as it was; once it is
acknowledged the changes stay applied and the generation has moved. -/
def Traceless (session : NativeSession S O A C R F B I τ) (changes : List (SourceChange S O))
    (cancellable : Bool) (during : T) (abandon : T → Bool) : Prop :=
  let (result, after) := editDuring tools ts changes cancellable during abandon (.start session)
  (after.updateLanded = false → (∃ error, result = .error error) →
    overlay after.session = overlay session) ∧
  (after.updateLanded = true → after.session.sources = applySources session.sources changes ∧
    after.session.generation = session.generation + 1)

variable {session : NativeSession S O A C R F B I τ} {changes : List (SourceChange S O)}

private theorem editDuring_traceless (cancellable : Bool) (during : T) (abandon : T → Bool)
    (undone : Restorable session.sources changes ∨ 2 ^ 64 ≤ session.generation + 1) :
    Traceless tools ts session changes cancellable during abandon := by
  let Kept := fun editing : Editing S O A C R F B I τ T =>
    overlay editing.session = overlay session ∧ editing.updateLanded = false
  let Done := fun (result : Except (BackendError ε) (Edited S A C F B I T))
      (after : Editing S O A C R F B I τ T) =>
    (after.updateLanded = false → (∃ error, result = .error error) →
      overlay after.session = overlay session) ∧
    (after.updateLanded → after.session.sources = applySources session.sources changes ∧
      after.session.generation = session.generation + 1)
  have early : ∀ result editing, Kept editing → Done result editing := fun _ _ kept =>
    ⟨fun _ _ => kept.1, fun landed => absurd (kept.2.symm.trans landed) (by decide)⟩
  have framed : ∀ {α : Type} {step : Step S O A C R F B I ε τ α}, Frames overlay step →
      Stays Kept (onSession step) := fun frames editing kept =>
    ⟨(frames editing.session).trans kept.1, kept.2⟩
  suffices whole : Meets Kept (editDuring tools ts changes cancellable during abandon) Done from
    whole (.start session) ⟨rfl, rfl⟩
  refine .bind (fun _ => Kept) (framed (checkCancelled_frames overlay_blind.toBlind ts cancellable))
    (fun _ => early _) fun _ => ?_
  split
  · refine .bind (fun _ => Kept) (framed fun session => ?_) (fun _ => early _) fun _ => .pure (early _)
    exact analyzeWithRecovery_meets ((analyze_frames tools ts cancellable).meets (overlay session))
      (fun _ _ same => same) _ session rfl
  refine .read_bind fun current => ?_
  split
  · exact .throw fun editing kept => early _ editing kept.1
  next room =>
    intro editing ⟨kept, held⟩
    subst held
    have before := kept.1
    simp only [overlay, Prod.mk.injEq] at before
    obtain ⟨sources, -, generation⟩ := before
    have restorable := undone.resolve_right (generation ▸ room)
    have whole : Ends (overlay (applyOverlay changes editing.session).2)
        (editing.session.generation + 1) (applyOverlay changes editing.session).1 _ _ :=
      (edit_rule tools ts (editing.session.generation + 1) (changes.map wireChange)
        (applyOverlay changes editing.session).1 cancellable).editLoop abandon recoveryAttempts
        { editing with session := (applyOverlay changes editing.session).2, during := some during }
        ⟨rfl, rfl, fun _ => rfl⟩
    refine ⟨fun unlanded _ => ?_, fun landed => ?_⟩
    · obtain ⟨_, last, applied, back⟩ := whole.2 unlanded
      refine ((congrArg overlay back).trans ?_).trans kept.1
      exact (restoreOverlay_overlay_iff changes applied).mpr (sources ▸ restorable)
    · have reached := Prod.mk.inj (whole.1 landed)
      refine ⟨reached.1.trans ?_, (Prod.mk.inj reached.2).2.trans (congrArg (· + 1) generation)⟩
      exact (applyOverlay_sources changes editing.session).trans (sources ▸ rfl)

/-- A Type Facts session that refuses everything, and a caller that never cancels. -/
def refusing : TypeFacts S A C R F B I ε τ where
  updateDuring _ := Act.throw .cancelled
  semanticGrouped _ := Act.throw .cancelled
  moduleGraph _ := Act.throw .cancelled
  transform _ := Act.throw .cancelled
  restartEpoch _ := 0
  lastUpdateGraph _ := none
  cancelled typescript := (false, typescript)
  isTransportFailure _ := false

private theorem editDuring_refusing (cancellable : Bool) (during : T) (abandon : T → Bool)
    (some_change : changes ≠ []) (room : ¬2 ^ 64 ≤ session.generation + 1) :
    editDuring tools refusing changes cancellable during abandon (.start session) =
      (.error .cancelled, ⟨restoreOverlay (applyOverlay changes session).1
        (applyOverlay changes session).2, false, none, none⟩) := by
  obtain ⟨change, changes, rfl⟩ := exists_cons_of_ne_nil some_change
  have polled : (onSession (checkCancelled refusing cancellable) :
      EditStep S O A C R F B I ε τ T PUnit) (.start session) = (.ok ⟨⟩, .start session) := by
    cases cancellable <;> rfl
  refine (Act.bind_of_ok polled _).trans ?_
  show (if 2 ^ 64 ≤ session.generation + 1 then Act.throw .generation else _ :
    EditStep S O A C R F B I ε τ T (Edited S A C F B I T)) (.start session) = _
  rw [if_neg room]
  rfl

/-- Whatever the Type Facts session does, an edit leaves no trace unless it lands, exactly if its
changes are restorable or the generations are used up. -/
theorem edit_leaves_no_trace (session : NativeSession S O A C R F B I τ)
    (changes : List (SourceChange S O)) (cancellable : Bool) (during : T) (abandon : T → Bool) :
    (∀ ts : TypeFacts S A C R F B I ε τ,
      Traceless tools ts session changes cancellable during abandon) ↔
      Restorable session.sources changes ∨ 2 ^ 64 ≤ session.generation + 1 := by
  constructor
  · intro traceless
    by_cases some_change : changes = []
    · subst some_change
      exact .inl fun _ => rfl
    by_cases room : 2 ^ 64 ≤ session.generation + 1
    · exact .inr room
    have refused := traceless refusing
    rw [Traceless, editDuring_refusing tools cancellable during abandon some_change room] at refused
    exact .inl ((restoreOverlay_overlay_iff changes rfl).mp (refused.1 rfl ⟨_, rfl⟩))
  · exact fun undone ts => editDuring_traceless tools ts cancellable during abandon undone

/-- A refused edit that changes one path twice leaves the text of its first change. -/
theorem edit_leaves_first_text :
    let session : NativeSession Bool Unit Unit Unit Bool Unit Unit Unit Unit :=
      openRewritten ['p'] [⟨['a'], true, ()⟩] ∅ ()
    let changes : List (SourceChange Bool Unit) :=
      [⟨['a'], 1, some false, ()⟩, ⟨['a'], 2, some true, ()⟩]
    let after := (editDuring twoTexts refusing changes false () (fun _ => false) (.start session)).2
    (session.sources.lookup ['a']).map SourceFile.source = some true ∧
      (after.session.sources.lookup ['a']).map SourceFile.source = some false ∧
      after.updateLanded = false ∧
      ¬Traceless twoTexts refusing session changes false () fun _ => false := by
  refine ⟨by decide +kernel, by decide +kernel, by decide +kernel, fun traceless => ?_⟩
  have same := congrArg (fun held => (held.1.lookup ['a']).map SourceFile.source)
    (traceless.1 (by decide +kernel) ⟨.cancelled, rfl⟩)
  exact absurd same (by decide +kernel)

end

end SolidChecker.Backend.NativeSession
