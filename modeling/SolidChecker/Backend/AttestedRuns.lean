/- source: solid-facts-backend/src/lib.rs -/

import SolidChecker.Backend.Attestation

namespace SolidChecker.Backend.NativeSession

open List

open Foundation (Act)
open Foundation.Act (Frames Meets Stays)
open Producer (Path)

variable {S O A C R F B I ε τ T W : Type} {producers : Producers τ W I}
  {ts : TypeFacts S A C R F B I ε τ} {tools : Tools S O A C R F ε} {absolute : Path → Path}
  {origin session : NativeSession S O A C R F B I τ} {changed : List Path} {nextGeneration : ℕ}

def AttestedBy (producers : Producers τ W I) (scope : List Path) (index : AttestedImportIndex I)
    (now : τ) : Prop :=
  ∃ producer, producers.running now = some producer ∧
    (producers.counted producer → index = producers.fullAttestation producer scope)

/-- Since `origin` nothing was asked but reads, and at most the attestation was dropped. -/
structure Standing (producers : Producers τ W I) (ts : TypeFacts S A C R F B I ε τ)
    (origin session : NativeSession S O A C R F B I τ) : Prop where
  kept : Kept producers ts origin.typescript session.typescript
  last : session.lastFacts = origin.lastFacts
  generation : session.generation = origin.generation
  epoch : ∀ epoch, session.attestedEpoch = some epoch → origin.attestedEpoch = some epoch

private theorem Standing.refl (usable : producers.usable session.typescript) :
    Standing producers ts session session :=
  ⟨⟨usable, .refl _⟩, rfl, rfl, fun _ same => same⟩

private theorem Standing.trans {between : NativeSession S O A C R F B I τ}
    (first : Standing producers ts origin between) (second : Standing producers ts between session) :
    Standing producers ts origin session :=
  ⟨⟨second.kept.1, first.kept.2.trans second.kept.2⟩, second.last.trans first.last,
    second.generation.trans first.generation, fun epoch stamped =>
      first.epoch epoch (second.epoch epoch stamped)⟩

private theorem Faithful.of_standing (faithful : Faithful producers ts origin)
    (standing : Standing producers ts origin session) : Faithful producers ts session := by
  have moved := faithful.since standing.kept
  refine ⟨moved.usable, fun epoch stamped => moved.epoch epoch (standing.epoch epoch stamped), ?_⟩
  rw [standing.last, standing.generation]
  intro facts is_last
  exact ⟨(moved.last facts is_last).1, fun current stamped =>
    (moved.last facts is_last).2 current (standing.epoch _ stamped)⟩

private theorem Faithful.forget (faithful : Faithful producers ts session) :
    Faithful producers ts { session with lastFacts := none } :=
  ⟨faithful.usable, faithful.epoch, nofun⟩

private theorem Landed.of_standing (landed : Landed producers ts absolute changed nextGeneration origin)
    (standing : Standing producers ts origin session) :
    Landed producers ts absolute changed nextGeneration session := by
  have moved := landed.since standing.kept
  refine ⟨moved.usable, fun epoch stamped => moved.epoch epoch (standing.epoch epoch stamped), ?_, ?_⟩
  · rw [standing.last]
    exact moved.older
  · rw [standing.last]
    intro update graph keeps stamped
    exact moved.last update graph keeps (standing.epoch _ stamped)

private theorem standing_of_kept {α : Type} {step : Step S O A C R F B I ε τ α}
    (reads : ∀ origin, Stays (fun session => Kept producers ts origin session.typescript) step)
    (frames : Frames (fun session => (session.attestedEpoch, session.lastFacts, session.generation))
      step) (origin : NativeSession S O A C R F B I τ) :
    Stays (Standing producers ts origin) step := by
  intro session standing
  have kept := reads origin.typescript session standing.kept
  have same := frames session
  simp only [Prod.mk.injEq] at same
  exact ⟨kept, same.2.1.trans standing.last, same.2.2.trans standing.generation,
    fun epoch stamped => standing.epoch epoch (same.1.symm.trans stamped)⟩

private theorem stamp_blind : BuildBlind fun session : NativeSession S O A C R F B I τ =>
    (session.attestedEpoch, session.lastFacts, session.generation) :=
  ⟨⟨fun _ _ => rfl⟩, fun _ _ => rfl, fun _ _ => rfl⟩

/-- Reads that give, unless the epoch moved meanwhile, an index of the running producer. -/
def Patched (producers : Producers τ W I) (ts : TypeFacts S A C R F B I ε τ)
    (origin : NativeSession S O A C R F B I τ) (scope : List Path)
    (result : Except (BackendError ε) (Option (AttestedImportIndex I)))
    (session : NativeSession S O A C R F B I τ) : Prop :=
  Standing producers ts origin session ∧ ∀ index, result = .ok (some index) →
    ts.restartEpoch session.typescript = ts.restartEpoch origin.typescript →
    AttestedBy producers scope index session.typescript

variable (serves : Serves producers ts absolute)

section

variable (origin : NativeSession S O A C R F B I τ)

def Full (producers : Producers τ W I) (ts : TypeFacts S A C R F B I ε τ) (scope : List Path)
    (result : Except (BackendError ε) (AttestedImportIndex I))
    (session : NativeSession S O A C R F B I τ) : Prop :=
  Standing producers ts origin session ∧ ∀ index, result = .ok index →
    AttestedBy producers scope index session.typescript

include serves

private theorem moduleGraph_standing (asked : List Path) :
    Meets (Standing producers ts origin) (ask (ts.moduleGraph asked))
      fun result session => Standing producers ts origin session ∧
        ∀ graph, result = .ok graph → ∃ producer,
          producers.running session.typescript = some producer ∧
            graph = producers.answer producer asked := by
  intro session standing
  refine ⟨standing_of_kept (ask_kept fun now usable => (serves.moduleGraph asked now usable).1)
    (ask_frames stamp_blind.toBlind _) origin session standing, ?_⟩
  exact (serves.moduleGraph asked session.typescript standing.kept.1).2

private theorem attestImportIdentities_full (scope : List Path) : Meets (Standing producers ts origin)
      (attestImportIdentities ts scope)
      (Full origin producers ts scope) := by
  refine .bind _ (moduleGraph_standing serves origin scope)
    (fun _ _ asked => ⟨asked.1, nofun⟩) fun graph => .pure fun session asked =>
      ⟨asked.1, fun index told => ?_⟩
  cases told
  obtain ⟨producer, running, rfl⟩ := asked.2 graph rfl
  exact ⟨producer, running, fun _ => rfl⟩

variable {facts : ProjectFacts S A C F B I}

private theorem patchImportIdentities_full {scope : List Path} (covered : List Path)
    {index : AttestedImportIndex I} (distinct : scope.Nodup) (listed : changed.Nodup)
    (count : index.keys.card = scope.length) (covers : ∀ path ∈ scope, path ∈ index.keys)
    (held : ∀ producer, producers.Runs origin.typescript producer →
      covered.Nodup ∧ ∃ earlier, index = producers.fullAttestation earlier covered ∧
        ∀ path, path ∉ changed → producers.told producer path = producers.told earlier path) :
    Meets (Standing producers ts origin)
      (patchImportIdentities ts index (changed.filter fun path => path ∈ scope)) (Patched producers ts origin scope) := by
  refine .bind _ (moduleGraph_standing serves origin _) (fun _ _ asked => ⟨asked.1, nofun⟩)
    fun graph => ?_
  split
  · next known =>
      refine .pure fun session asked => ⟨asked.1, fun patched told epoch => ?_⟩
      cases told
      obtain ⟨producer, running, rfl⟩ := asked.2 graph rfl
      rcases asked.1.kept.2 with moved | ⟨-, -, still⟩
      · exact absurd epoch moved.ne'
      · refine ⟨producer, running, fun counted => ?_⟩
        obtain ⟨before, earlier, rfl, others⟩ := held producer (still producer ⟨running, counted⟩)
        exact Producers.patched_eq_full serves.apart distinct before listed count covers others known
  · exact .pure fun session asked => ⟨asked.1, nofun⟩

private theorem keptAttestation_full (landed : Landed producers ts absolute changed facts.generation origin)
    (distinct : (scopeOf facts).Nodup) (listed : changed.Nodup)
    (plain : ∀ path ∈ changed, absolute path = path) : Meets (Standing producers ts origin)
      (keptAttestation ts facts (scopeOf facts) changed)
      (Patched producers ts origin (scopeOf facts)) := by
  have nothing : Meets (Standing producers ts origin)
      (pure none)
      (Patched producers ts origin (scopeOf facts)) := .pure fun _ standing => ⟨standing, nofun⟩
  refine .read_bind fun state => ?_
  suffices rest : Standing producers ts origin state → Meets (Standing producers ts origin) _
      (Patched producers ts origin (scopeOf facts)) from
    fun session ⟨standing, same⟩ => rest (same ▸ standing) session standing
  intro standing
  have names : changed.map absolute = changed :=
    (map_congr_left plain).trans (map_id' changed)
  split
  · exact nothing
  next update graph =>
    split
    · exact nothing
    next condition =>
      simp only [not_or, not_not, Bool.not_eq_false] at condition
      obtain ⟨keeps, -, stamped⟩ := condition
      rw [serves.lastUpdateGraph _ update graph] at stamped
      split
      · exact nothing
      next previous found =>
        obtain ⟨earlierFacts, is_last, attested⟩ := Option.bind_eq_some_iff.mp found
        obtain ⟨is_last, generation⟩ := Option.filter_eq_some_iff.mp is_last
        split
        · exact nothing
        next condition =>
          simp only [not_or, not_not, any_eq_true, decide_eq_true_eq, not_exists, not_and]
            at condition
          refine patchImportIdentities_full serves origin (scopeOf earlierFacts) distinct listed
            condition.1 (fun path member => condition.2 path member) fun producer running => ?_
          have was := standing.epoch _ stamped
          rcases standing.kept.2 with moved | ⟨same, graphs, -⟩
          · exact absurd (landed.epoch _ was) (not_le.mpr moved)
          · rw [← names]
            exact landed.last update (graphs.symm.trans graph) keeps
              (was.trans (congrArg some same)) earlierFacts previous (standing.last.symm.trans is_last)
              (of_decide_eq_true generation) attested producer running

section

variable {edited : Option (List Path)}
  (landed : ∀ changed, edited = some changed →
    Landed producers ts absolute changed facts.generation origin ∧ changed.Nodup ∧
      ∀ path ∈ changed, absolute path = path) (distinct : (scopeOf facts).Nodup)

include landed distinct

private theorem firstAttestation_full : Meets (Standing producers ts origin)
      (firstAttestation ts facts (scopeOf facts) edited)
      fun result session => Standing producers ts origin session ∧ ∀ index, result = .ok index →
        ts.restartEpoch session.typescript = ts.restartEpoch origin.typescript →
        AttestedBy producers (scopeOf facts) index session.typescript := by
  refine .bind (Patched producers ts origin (scopeOf facts)) ?_
    (fun _ _ patched => ⟨patched.1, nofun⟩) fun kept => ?_
  · cases edited with
    | none => exact .pure fun _ standing => ⟨standing, nofun⟩
    | some changed =>
      obtain ⟨landed, listed, plain⟩ := landed changed rfl
      exact keptAttestation_full serves origin landed distinct listed plain
  · cases kept with
    | some index =>
      refine .pure fun session patched => ⟨patched.1, fun other told => ?_⟩
      cases told
      exact patched.2 _ rfl
    | none =>
      exact (attestImportIdentities_full serves origin (scopeOf facts)).weaken
        (fun _ patched => patched.1) fun _ _ full => ⟨full.1, fun index told _ => full.2 index told⟩

private theorem attestScope_full :
    Meets (fun session => session = origin ∧ producers.usable session.typescript)
      (attestScope ts facts (scopeOf facts) edited)
      (Full origin producers ts (scopeOf facts)) := by
  refine .read_bind fun epoch => ?_
  suffices rest : epoch = ts.restartEpoch origin.typescript → Meets (Standing producers ts origin) _
      (Full origin producers ts (scopeOf facts)) from fun session
    ⟨⟨same, usable⟩, read⟩ => rest (same ▸ read.symm) session (same ▸ .refl (same ▸ usable))
  rintro rfl
  refine .bind _ (firstAttestation_full serves origin landed distinct)
    (fun _ _ first => ⟨first.1, nofun⟩) fun index => .read_bind fun after => ?_
  split
  · refine .bind _ ((attestImportIdentities_full serves origin (scopeOf facts)).strengthen
      (fun _ first => first.1.1)) (fun _ _ full => ⟨full.1, nofun⟩)
      fun index => .read_bind fun again => ?_
    split
    · refine .modify_bind (Standing producers ts origin) (fun session full => ?_)
        (.throw fun _ standing => ⟨standing, nofun⟩)
      exact ⟨full.1.1.kept, full.1.1.last, full.1.1.generation, nofun⟩
    · refine .pure fun session full => ⟨full.1.1, fun other told => ?_⟩
      cases told
      exact full.1.2 _ rfl
  · next same =>
      refine .pure fun session first => ⟨first.1.1, fun other told => ?_⟩
      cases told
      exact first.1.2 _ rfl (first.2.trans (not_not.mp same))

end

def Fresh (producers : Producers τ W I) (facts : ProjectFacts S A C F B I) (now : τ) : Prop :=
  facts.files ≠ [] → ∃ producer, producers.running now = some producer ∧
    (producers.counted producer →
      facts.resolvedImports = some (producers.fullAttestation producer (scopeOf facts)))

def Ready (producers : Producers τ W I) (ts : TypeFacts S A C R F B I ε τ) (generation : ℕ)
    (origin : NativeSession S O A C R F B I τ)
    (result : Except (BackendError ε) (ProjectFacts S A C F B I))
    (session : NativeSession S O A C R F B I τ) : Prop :=
  session.generation = origin.generation ∧ match result with
  | .error _ => Standing producers ts origin session
  | .ok facts => facts.generation = generation ∧ (scopeOf facts).Nodup ∧
      Fresh producers facts session.typescript ∧ Faithful producers ts { session with lastFacts := none } ∧
      (facts.files = [] → facts.resolvedImports = none)

omit serves in
private theorem Ready.keep {generation : ℕ}
    (ready : Ready producers ts generation origin (.ok facts) session)
    (current : origin.generation = generation) :
    Faithful producers ts { session with lastFacts := some facts } := by
  obtain ⟨same, stamped, distinct, fresh, faithful, empty⟩ := ready
  refine ⟨faithful.usable, faithful.epoch, fun last is_last => ?_⟩
  cases is_last
  have level : facts.generation = session.generation := stamped.trans (current.symm.trans same.symm)
  refine ⟨level.le, fun _ _ index attested producer running => ⟨distinct, ?_⟩⟩
  by_cases nothing : facts.files = []
  · exact nomatch (empty nothing).symm.trans attested
  · obtain ⟨other, here, full⟩ := fresh nothing
    cases here.symm.trans running.1
    exact Option.some.inj (attested.symm.trans (full running.2))

private theorem attested_ready {generation : ℕ} {edited : Option (List Path)}
    (made : Unattested generation facts) (faithful : Faithful producers ts origin)
    (landed : ∀ changed, edited = some changed →
      Landed producers ts absolute changed generation origin ∧ changed.Nodup ∧
        ∀ path ∈ changed, absolute path = path) :
    Meets (fun session => session = origin) (attested ts facts edited)
      (Ready producers ts generation origin) := by
  refine .bind (fun _ => Standing producers ts origin)
    ((standing_of_kept (ask_kept (serves.transform facts)) (ask_frames stamp_blind.toBlind _)
      origin).strengthen (by rintro _ rfl; exact .refl faithful.usable))
    (fun _ _ standing => ⟨standing.generation, standing⟩) fun _ => ?_
  split
  · next empty =>
      have nothing : facts.files = [] := isEmpty_iff.mp empty
      exact .pure fun session standing => ⟨standing.generation, made.generation, made.distinct,
        fun some_files => absurd nothing some_files, (faithful.of_standing standing).forget,
        fun _ => made.unresolved⟩
  · next some_files =>
      refine .bind (Full origin producers ts (scopeOf facts)) (fun session standing => ?_)
        (fun _ _ full => ⟨full.1.generation, full.1⟩) fun index => ?_
      · obtain ⟨later, full⟩ := attestScope_full serves session (fun changed is_edit => by
          obtain ⟨landed, rest⟩ := landed changed is_edit
          rw [made.generation]
          exact ⟨landed.of_standing standing, rest⟩) made.distinct session ⟨rfl, standing.kept.1⟩
        exact ⟨standing.trans later, full⟩
      · refine .modify_bind (fun session => session.generation = origin.generation ∧
          AttestedBy producers (scopeOf facts) index session.typescript ∧
          Faithful producers ts { session with lastFacts := none }) (fun session full => ?_)
          (.pure fun session stamped => ?_)
        · exact ⟨full.1.generation, full.2 index rfl, full.1.kept.1,
            fun epoch same => (Option.some.inj same).ge, nofun⟩
        · obtain ⟨generation, ⟨producer, running, full⟩, faithful⟩ := stamped
          exact ⟨generation, made.generation, made.distinct, fun _ => ⟨producer, running,
            fun counted => congrArg some (full counted)⟩, faithful, fun nothing => absurd (isEmpty_iff.mpr nothing)
              some_files⟩

end

def Due (session : NativeSession S O A C R F B I τ) : Prop :=
  (session.lastFacts.filter fun facts => decide (facts.generation = session.generation)) = none

instance (session : NativeSession S O A C R F B I τ) : Decidable (Due session) :=
  inferInstanceAs (Decidable (_ = none))

structure Settled (tools : Tools S O A C R F ε) (producers : Producers τ W I)
    (ts : TypeFacts S A C R F B I ε τ) (session : NativeSession S O A C R F B I τ) : Prop where
  faithful : Faithful producers ts session
  addressed : Addressed tools session

section

private theorem Standing.due (standing : Standing producers ts origin session) (due : Due origin) : Due session := by
  unfold Due at due ⊢
  rw [standing.last, standing.generation]
  exact due

def Analyzed (tools : Tools S O A C R F ε) (producers : Producers τ W I)
    (ts : TypeFacts S A C R F B I ε τ) (due : Prop)
    (result : Except (BackendError ε) (ProjectFacts S A C F B I))
    (session : NativeSession S O A C R F B I τ) : Prop :=
  Settled tools producers ts session ∧ (due → match result with
    | .error _ => Due session
    | .ok facts => Fresh producers facts session.typescript)

include serves

private theorem checkCancelled_settled (cancellable : Bool) (origin : NativeSession S O A C R F B I τ) :
    Stays (fun session => Standing producers ts origin session ∧ Addressed tools session)
      (checkCancelled ts cancellable) :=
  (standing_of_kept (checkCancelled_kept serves cancellable)
    (checkCancelled_frames stamp_blind.toBlind ts cancellable) origin).and
    (addressed_of_frames (checkCancelled_frames bare_blind ts cancellable))

private theorem buildProject_settled (generation : ℕ) (cancellable : Bool)
    (retained : Option (Retained S A C)) (origin : NativeSession S O A C R F B I τ) :
    Meets (fun session => Standing producers ts origin session ∧ Addressed tools session)
      (buildProject tools ts generation cancellable retained)
      fun result session => Standing producers ts origin session ∧ Scoped tools generation result session :=
  (standing_of_kept (buildProject_kept serves generation cancellable retained)
    (buildProject_frames ts stamp_blind tools generation cancellable retained) origin).and
    (buildProject_scope ts generation cancellable retained)

omit serves in
private theorem attested_addressed (tools : Tools S O A C R F ε) (ts : TypeFacts S A C R F B I ε τ)
    (facts : ProjectFacts S A C F B I) (edited : Option (List Path)) :
    Stays (Addressed tools) (attested ts facts edited) :=
  addressed_of_frames (attested_frames bare_blind ts (fun _ _ => rfl) facts edited)

private theorem analyze_attests (cancellable : Bool) (due : Prop) :
    Meets (fun session => Settled tools producers ts session ∧ (due → Due session))
      (analyze tools ts cancellable)
      (Analyzed tools producers ts due) := by
  intro origin ⟨settled, is_due⟩
  have failing : ∀ error session,
      Standing producers ts origin session ∧ Addressed tools session →
        Analyzed (F := F) (B := B) (I := I) tools producers ts due (.error error) session :=
    fun error session held => ⟨⟨settled.faithful.of_standing held.1, held.2⟩,
      fun asked => held.1.due (is_due asked)⟩
  refine Meets.bind _ (checkCancelled_settled serves cancellable origin) failing (fun _ => ?_) origin
    ⟨.refl settled.faithful.usable, settled.addressed⟩
  refine Meets.read_bind fun state => ?_
  split
  · next facts current =>
      refine .pure fun session held => ⟨⟨settled.faithful.of_standing held.1.1, held.1.2⟩,
        fun asked => ?_⟩
      obtain rfl : session = state := held.2
      exact nomatch (held.1.1.due (is_due asked)).symm.trans current
  suffices rest : state.generation = origin.generation → Meets (fun session =>
      Standing producers ts origin session ∧ Addressed tools session) _
      (Analyzed tools producers ts due) from fun session ⟨held, same⟩ =>
    rest (same ▸ held.1.generation) session held
  intro generation
  refine .bind _ (buildProject_settled serves _ cancellable none origin)
    (fun error session built => failing error session ⟨built.1, built.2.1⟩) fun facts => ?_
  intro session ⟨standing, addressed, made⟩
  have attesting := (attested_ready serves session (made facts rfl)
    (settled.faithful.of_standing standing) (by exact nofun)).and (attested_addressed tools ts facts none)
  refine Meets.bind _ attesting (fun error after ready => ?_) (fun facts => ?_) session
    ⟨rfl, addressed⟩
  · exact failing error after ⟨standing.trans ready.1.2, ready.2⟩
  · refine .modify_bind (Analyzed tools producers ts due (.ok facts)) (fun after ready => ?_)
      (.pure fun _ analyzed => analyzed)
    refine ⟨⟨ready.1.keep session (standing.generation.trans generation.symm), ready.2.sources,
      ready.2.cache⟩, fun _ => ?_⟩
    exact ready.1.2.2.2.1

end

section

variable {wire : List (WireChange S)}

/-- An edit under way: before its update lands the earlier facts are as between calls. -/
structure Underway (tools : Tools S O A C R F ε) (producers : Producers τ W I)
    (ts : TypeFacts S A C R F B I ε τ) (absolute : Path → Path) (changed : List Path)
    (nextGeneration : ℕ) (editing : Editing S O A C R F B I τ T) : Prop where
  addressed : Addressed tools editing.session
  ahead : editing.updateLanded = false → Faithful producers ts editing.session ∧
    editing.session.generation + 1 = nextGeneration
  landed : editing.updateLanded = true →
    Landed producers ts absolute changed nextGeneration editing.session

def Attests (tools : Tools S O A C R F ε) (producers : Producers τ W I)
    (ts : TypeFacts S A C R F B I ε τ) (due : Prop)
    (result : Except (BackendError ε) (Edited S A C F B I T))
    (editing : Editing S O A C R F B I τ T) : Prop :=
  Settled tools producers ts editing.session ∧ (due → ∀ facts overlapped,
    result = .ok (.facts facts overlapped) → Fresh producers facts editing.session.typescript)

variable {due : Prop}

private theorem Underway.of_standing {editing : Editing S O A C R F B I τ T}
    (going : Underway tools producers ts absolute changed nextGeneration editing)
    (flag : editing.updateLanded) (standing : Standing producers ts editing.session session)
    (addressed : Addressed tools session) :
    Underway tools producers ts absolute changed nextGeneration { editing with session } :=
  ⟨addressed, fun unlanded => absurd (flag.symm.trans unlanded) (by decide),
    fun landed => (going.landed landed).of_standing standing⟩

private theorem restoreOverlay_faithful (displaced : List (Displaced S O))
    (faithful : Faithful producers ts session) :
    Faithful producers ts (restoreOverlay displaced session) :=
  foldlRecOn displaced _ faithful fun _ kept _ _ => ⟨kept.usable, kept.epoch, kept.last⟩

private theorem applyOverlay_faithful (changes : List (SourceChange S O))
    (faithful : Faithful producers ts session) :
    Faithful producers ts (applyOverlay changes session).2 := by
  rw [applyOverlay_snd]
  exact foldlRecOn changes _ faithful fun _ kept _ _ => ⟨kept.usable, kept.epoch, kept.last⟩

include serves

private theorem finishEdit_attests (listed : (wire.map WireChange.path).Nodup)
    (plain : ∀ path ∈ wire.map WireChange.path, absolute path = path)
    {facts : ProjectFacts S A C F B I} (made : Unattested nextGeneration facts) :
    Meets (fun editing : Editing S O A C R F B I τ T =>
        (Underway tools producers ts absolute (wire.map WireChange.path) nextGeneration editing ∧
          editing.updateLanded) ∧ editing.session.generation = nextGeneration)
      (finishEdit ts wire facts) (Attests tools producers ts due) := by
  intro editing ⟨⟨going, flag⟩, generation⟩
  have landed := going.landed flag
  have faithful := landed.faithful generation
  have ready := attested_ready serves editing.session made faithful
    (fun changed is_edit => Option.some.inj is_edit ▸ ⟨landed, listed, plain⟩) editing.session rfl
  have addressed := attested_addressed tools ts facts (some (wire.map WireChange.path))
    editing.session going.addressed
  refine Meets.bind (fun result after =>
      Ready producers ts nextGeneration editing.session result after.session ∧
        Addressed tools after.session) (fun _ same => same ▸ ⟨ready, addressed⟩)
    (fun error after held => ?_) (fun facts => ?_) editing rfl
  · exact ⟨⟨faithful.of_standing held.1.2, held.2⟩, nofun⟩
  · refine .modify_bind (fun after => Settled tools producers ts after.session ∧
      Fresh producers facts after.session.typescript) (fun after held => ?_)
      (.read_bind fun overlapped => .pure fun after held => ⟨held.1.1, ?_⟩)
    · exact ⟨⟨held.1.keep editing.session generation, held.2.sources, held.2.cache⟩, held.1.2.2.2.1⟩
    · intro _ other overlapped told
      cases told
      exact held.1.2

private theorem attest_rule (some_changes : wire ≠ []) (listed : (wire.map WireChange.path).Nodup)
    (plain : ∀ path ∈ wire.map WireChange.path, absolute path = path)
    {displaced : List (Displaced S O)}
    (placed : ∀ entry ∈ displaced, ∀ file, entry.2.1 = some file → Placed tools entry.1 file)
    (cancellable : Bool) : EditRule (T := T) tools ts nextGeneration wire displaced cancellable
      (Underway tools producers ts absolute (wire.map WireChange.path) nextGeneration)
      (fun editing => Underway tools producers ts absolute (wire.map WireChange.path) nextGeneration
        editing ∧ editing.updateLanded)
      (Unattested nextGeneration) (Attests tools producers ts due) where
  landed_iff _ := Iff.rfl
  started _ going := ⟨going.addressed, going.ahead, going.landed⟩
  sent := by
    rintro editing ⟨going, unlanded⟩
    obtain ⟨faithful, next⟩ := going.ahead unlanded
    have outcome := serves.updateDuring wire editing.session.typescript some_changes faithful.usable
    unfold onSession ask Act.zoom
    dsimp only
    generalize ts.updateDuring wire editing.session.typescript = reply at outcome ⊢
    obtain ⟨result, after⟩ := reply
    cases result with
    | error error =>
      exact ⟨⟨going.addressed.sources, going.addressed.cache⟩,
        fun _ => ⟨faithful.since outcome, next⟩,
        fun landed => absurd (landed.symm.trans unlanded) (by decide)⟩
    | ok done =>
      exact fun _ => ⟨⟨⟨going.addressed.sources, going.addressed.cache⟩,
        fun landed => (nomatch landed), fun _ => faithful.landed next outcome.1 outcome.2⟩, rfl⟩
  polled := by
    rintro editing ⟨going, flag⟩
    obtain ⟨standing, addressed⟩ := checkCancelled_settled serves cancellable editing.session
      editing.session ⟨.refl (going.landed flag).usable, going.addressed⟩
    exact ⟨going.of_standing flag standing addressed, flag⟩
  built := by
    rintro session editing ⟨⟨going, flag⟩, -⟩
    obtain ⟨standing, addressed, made⟩ := buildProject_settled serves nextGeneration cancellable _
      editing.session editing.session ⟨.refl (going.landed flag).usable, going.addressed⟩
    exact ⟨⟨going.of_standing flag standing addressed, flag⟩, made⟩
  followed := by
    rintro editing ⟨going, flag⟩
    obtain ⟨usable, epoch, older, last⟩ := going.landed flag
    exact ⟨⟨⟨going.addressed.sources, going.addressed.cache⟩,
      fun unlanded => absurd (flag.symm.trans unlanded) (by decide),
      fun _ => ⟨usable, epoch, older, last⟩⟩, flag⟩
  finished _ made := finishEdit_attests serves listed plain made
  settled result editing held generation unfinished :=
    ⟨⟨(held.1.landed held.2).faithful generation, held.1.addressed⟩,
      fun _ facts overlapped told => absurd told (unfinished facts overlapped)⟩
  undone error editing going flag :=
    ⟨⟨restoreOverlay_faithful displaced (going.ahead flag).1,
      restoreOverlay_addressed placed going.addressed⟩, nofun⟩

structure Plain (tools : Tools S O A C R F ε) (absolute : Path → Path)
    (changes : List (SourceChange S O)) : Prop where
  once : (changes.map SourceChange.path).Nodup
  absolute : ∀ change ∈ changes, absolute change.path = change.path
  normal : ∀ change ∈ changes, tools.normalizePath change.path = change.path

private theorem editDuring_attests {changes : List (SourceChange S O)}
    (plain : Plain tools absolute changes) (cancellable : Bool) (during : T) (abandon : T → Bool)
    (settled : Settled tools producers ts session) :
    let outcome := editDuring tools ts changes cancellable during abandon (.start session)
    Attests tools producers ts (changes ≠ [] ∨ Due session) outcome.1 outcome.2 := by
  let Before := fun editing : Editing S O A C R F B I τ T =>
    Standing producers ts session editing.session ∧ Addressed tools editing.session ∧
      editing.updateLanded = false
  suffices whole : Meets Before (editDuring tools ts changes cancellable during abandon)
      (Attests tools producers ts (changes ≠ [] ∨ Due session)) from
    whole (.start session) ⟨.refl settled.faithful.usable, settled.addressed, rfl⟩
  have early : ∀ error editing, Before editing →
      Attests tools producers ts (changes ≠ [] ∨ Due session) (.error error) editing :=
    fun _ _ before => ⟨⟨settled.faithful.of_standing before.1, before.2.1⟩, nofun⟩
  refine .bind (fun _ => Before) (fun editing before => ?_) early fun _ => ?_
  · obtain ⟨standing, addressed⟩ := checkCancelled_settled serves cancellable session editing.session
      ⟨before.1, before.2.1⟩
    exact ⟨standing, addressed, before.2.2⟩
  split
  · next empty =>
      have nothing : changes = [] := isEmpty_iff.mp empty
      refine .bind (fun result editing => Analyzed tools producers ts (Due session) result
        editing.session) (fun editing before => ?_) (fun _ _ failed => ⟨failed.1, nofun⟩)
        fun facts => .pure fun editing done => ⟨done.1, fun asked other overlapped told => ?_⟩
      · exact analyzeWithRecovery_meets (analyze_attests serves cancellable (Due session))
          (fun _ _ failed => failed) recoveryAttempts editing.session ⟨⟨settled.faithful.of_standing before.1, before.2.1⟩, before.1.due⟩
      · cases told
        exact done.2 (asked.resolve_left fun some_changes => some_changes nothing)
  · next some_changes =>
      refine .read_bind fun current => ?_
      split
      · exact .throw fun editing held => early _ editing held.1
      rintro editing ⟨⟨standing, addressed, unlanded⟩, rfl⟩
      obtain ⟨applied, placed⟩ := applyOverlay_addressed plain.normal addressed
      have paths : (changes.map wireChange).map WireChange.path = changes.map SourceChange.path := by
        rw [map_map]
        rfl
      refine (attest_rule serves ?_ ?_ ?_ placed cancellable).editLoop abandon recoveryAttempts _
        ⟨applied, fun _ => ⟨?_, ?_⟩, fun landed => absurd (landed.symm.trans unlanded) (by decide)⟩
      · simpa using some_changes
      · rw [paths]
        exact plain.once
      · rw [paths]
        intro path member
        obtain ⟨change, listed, rfl⟩ := mem_map.mp member
        exact plain.absolute change listed
      · exact applyOverlay_faithful changes (settled.faithful.of_standing standing)
      · exact congrArg (· + 1) (applyOverlay_generation changes editing.session)

end

section

def builds (ts : TypeFacts S A C R F B I ε τ) (tools : Tools S O A C R F ε)
    (session : NativeSession S O A C R F B I τ) : Call S O T → Option (ProjectFacts S A C F B I)
  | .edit changes cancellable during abandon =>
    match (editDuring tools ts changes cancellable during abandon (.start session)).1 with
    | .ok (.facts facts _) => if changes = [] ∧ ¬ Due session then none else some facts
    | _ => none
  | .analyze cancellable =>
    match (analyze tools ts cancellable session).1 with
    | .ok facts => if Due session then some facts else none
    | .error _ => none
  | .setSemanticDemandOptions _ => none

private theorem setSemanticDemandOptions_settled (options : Bool)
    (settled : Settled tools producers ts session) :
    Settled tools producers ts (session.setSemanticDemandOptions options) := by
  obtain ⟨⟨usable, epoch, last⟩, sources, cache⟩ := settled
  refine ⟨⟨usable, epoch, ?_⟩, sources, cache⟩
  unfold setSemanticDemandOptions
  dsimp only
  split
  · exact nofun
  · exact last

include serves

theorem perform_attests {call : Call S O T} (plain : Plain tools absolute call.changes)
    (settled : Settled tools producers ts session) :
    Settled tools producers ts (perform ts tools session call) ∧
      ∀ facts, builds ts tools session call = some facts →
        Fresh producers facts (perform ts tools session call).typescript := by
  cases call with
  | edit changes cancellable during abandon =>
    obtain ⟨after, fresh⟩ := editDuring_attests serves plain cancellable during abandon settled
    refine ⟨after, fun facts built => ?_⟩
    unfold builds at built
    dsimp only at built
    split at built
    · next made overlapped told =>
        obtain ⟨due, same⟩ := Option.ite_none_left_eq_some.mp built
        obtain rfl := Option.some.inj same
        rw [not_and_or, not_not] at due
        exact fresh due made overlapped told
    · exact nomatch built
  | analyze cancellable =>
    obtain ⟨after, fresh⟩ := analyze_attests serves cancellable (Due session) session
      ⟨settled, fun due => due⟩
    refine ⟨after, fun facts built => ?_⟩
    unfold builds at built
    dsimp only at built
    split at built
    · next made told =>
        obtain ⟨due, same⟩ := Option.ite_none_right_eq_some.mp built
        cases same
        rw [told] at fresh
        exact fresh due
    · exact nomatch built
  | setSemanticDemandOptions options =>
    exact ⟨setSemanticDemandOptions_settled options settled, nofun⟩

theorem run_settled (calls : List (Call S O T))
    (plain : ∀ call ∈ calls, Plain tools absolute call.changes)
    (settled : Settled tools producers ts session) :
    Settled tools producers ts (calls.foldl (perform ts tools) session) := by
  induction calls generalizing session with
  | nil => exact settled
  | cons call calls ih =>
    obtain ⟨here, later⟩ := forall_mem_cons.mp plain
    exact ih later (perform_attests serves here settled).1

end

end SolidChecker.Backend.NativeSession
