/- source: solid-facts-backend/src/lib.rs -/

import SolidChecker.Backend.FreshBuild
import SolidChecker.Backend.Overlay

namespace SolidChecker.Backend.NativeSession

open List

open Foundation (Act)
open Foundation.Act (Frames Meets Stays Yields)
open Foundation.Grouping (sortByKey sortByKey_perm)
open Producer (Path)

variable {S O A C R F B I ε τ T : Type} {tools : Tools S O A C R F ε} {offers : Offers tools}
  {session : NativeSession S O A C R F B I τ} (ts : TypeFacts S A C R F B I ε τ)

def bare (session : NativeSession S O A C R F B I τ) : NativeSession S O A C R F B I Unit :=
  { session with typescript := (), attestedEpoch := none }

theorem bare_blind : Blind (bare : NativeSession S O A C R F B I τ → _) := ⟨fun _ _ => rfl⟩

abbrev Held (S O A C F B I : Type) := Overlay S O × Option (ProjectFacts S A C F B I) × Bool

def held (session : NativeSession S O A C R F B I τ) : Held S O A C F B I :=
  (overlay session, session.lastFacts, session.semanticDemandOptions)

structure Logged (offers : Offers tools) (session : NativeSession S O A C R F B I τ) : Prop where
  cache : SoundCache offers session.cache
  built : ∀ entry ∈ session.built, freshBuild tools entry.generation entry.programHashes entry.options
    entry.sources = .ok (entry.files, entry.groups)

def Given (offers : Offers tools) (sources : Finmap fun _ : Path => SourceFile S O)
    (programHashes : Finmap fun _ : Path => Key) : Prop :=
  ∀ path file, sources.lookup path = some file →
    offers.offered path (digestOf tools programHashes file) file

def FactsOf (tools : Tools S O A C R F ε) (sources : Finmap fun _ : Path => SourceFile S O)
    (programHashes : Finmap fun _ : Path => Key) (files : List (FileFacts S A C)) : Prop :=
  ∀ facts ∈ files, ∃ file, sources.lookup facts.path = some file ∧
    Derived tools (digestOf tools programHashes file) file facts

abbrev Mid (offers : Offers tools) (kept : Held S O A C F B I)
    (session : NativeSession S O A C R F B I τ) : Prop := Logged offers session ∧ held session = kept

variable {α : Type}

private theorem logged_of_frames (offers : Offers tools) {step : Step S O A C R F B I ε τ α}
    (frames : Frames bare step) (kept : Held S O A C F B I) : Stays (Mid offers kept) step := by
  rintro session ⟨logged, same⟩
  have bared := frames session
  generalize (step session).2 = after at bared ⊢
  have cache : after.cache = session.cache := congrArg (fun view => view.cache) bared
  have built : after.built = session.built := congrArg (fun view => view.built) bared
  refine ⟨⟨cache ▸ logged.cache, built ▸ logged.built⟩, Eq.trans ?_ same⟩
  exact congrArg (fun view : NativeSession S O A C R F B I Unit => held view) bared

variable {file : SourceFile S O}

theorem mem_sortedSources :
    file ∈ sortedSources session ↔ ∃ path, session.sources.lookup path = some file := by
  unfold sortedSources
  rw [mem_filterMap]
  constructor
  · rintro ⟨path, -, found⟩
    exact ⟨path, found⟩
  · rintro ⟨path, found⟩
    refine ⟨path, (Finset.mem_sort _).mpr ?_, found⟩
    rw [Finmap.mem_keys]
    exact Finmap.mem_of_lookup_eq_some found

variable {stage : Stage A C R F ε α}

private theorem stage_logged (works : ∀ cache, SoundCache offers cache → SoundCache offers (stage cache).2)
    (kept : Held S O A C F B I) :
    Stays (Mid offers kept : NativeSession S O A C R F B I τ → Prop) (withCache stage) :=
  fun _ ⟨logged, same⟩ => ⟨⟨works _ logged.cache, logged.built⟩, same⟩

private theorem stage_fresh {expected : Except (BackendError ε) α}
    (works : ∀ cache, SoundCache offers cache →
      (stage cache).1 = expected ∧ SoundCache offers (stage cache).2) (kept : Held S O A C F B I) :
    Meets (Mid offers kept : NativeSession S O A C R F B I τ → Prop) (withCache stage)
      fun result session => result = expected ∧ Mid offers kept session := fun session mid =>
  ⟨(works _ mid.1.cache).1, stage_logged (fun cache sound => (works cache sound).2) kept session mid⟩

theorem hydrateRows_frames (files : Finmap fun _ : Path => FileFacts S A C) (rows : List (Path × F)) :
    Frames (fun cache => (cache.ast, cache.compiler, cache.semanticDemands))
      (hydrateRows tools files rows : Stage A C R F ε _) := by
  induction rows with
  | nil => exact .pure _
  | cons row rows ih =>
    obtain ⟨path, functions⟩ := row
    rw [hydrateRows]
    split
    · exact ih.bind fun _ => .pure _
    · exact (Frames.read _).bind fun kept => Frames.modify_bind (fun _ => rfl)
        (ih.bind fun _ => .pure _)

theorem soundCache_of_frames {cache after : FactsCache A C R F} (sound : SoundCache offers cache)
    (same : (after.ast, after.compiler, after.semanticDemands) =
      (cache.ast, cache.compiler, cache.semanticDemands)) : SoundCache offers after := by
  obtain ⟨ast, compiler, demands⟩ : after.ast = cache.ast ∧ after.compiler = cache.compiler ∧
    after.semanticDemands = cache.semanticDemands := by simpa using same
  exact ⟨ast ▸ sound.ast, compiler ▸ sound.compiler, demands ▸ sound.demands⟩

variable {generation : ℕ}

theorem join_files {projectId : Key} {files joined : List (FileFacts S A C)}
    {table : TypeScriptTable F B} (made : join (ε := ε) generation projectId files table = .ok joined) :
    joined = sortByKey FileFacts.path files := by
  unfold join at made
  split at made
  · exact nomatch made
  · split at made
    · exact nomatch made
    · simp only [bind, Except.bind] at made
      split at made
      · exact nomatch made
      · exact (Except.ok.inj made).symm

variable {files : List (FileFacts S A C)}

private theorem facts_sources (given : Given offers session.sources session.programHashes)
    (facts : Facts tools session.programHashes generation (sortedSources session) files) :
    FactsOf tools session.sources session.programHashes files ∧
      ∀ file ∈ files, offers.Made file := by
  have each : ∀ file ∈ files, ∃ path source, session.sources.lookup path = some source ∧
      file.path = path ∧ Derived tools (digestOf tools session.programHashes source) source file := by
    intro file member
    obtain ⟨source, from_sources, derived⟩ := facts.exists_source file member
    obtain ⟨path, found⟩ := mem_sortedSources.mp from_sources
    have offered := given path source found
    have normal := offers.normal offered
    rw [← offers.path_eq offered] at normal
    exact ⟨path, source, found, (derived.path_eq normal).trans (offers.path_eq offered), derived⟩
  constructor
  · intro file member
    obtain ⟨path, source, found, rfl, derived⟩ := each file member
    exact ⟨source, found, derived⟩
  · intro file member
    obtain ⟨path, source, found, -, derived⟩ := each file member
    exact ⟨path, _, source, given path source found, derived⟩

def Builds (offers : Offers tools) (kept : Held S O A C F B I) (generation : ℕ)
    (result : Except (BackendError ε) (ProjectFacts S A C F B I))
    (session : NativeSession S O A C R F B I τ) : Prop :=
  (Logged offers session ∧ held session = kept) ∧ ∀ facts, result = .ok facts →
    facts.generation = generation ∧ FactsOf tools kept.1.1 kept.1.2.1 facts.files

variable {kept : Held S O A C F B I}

private theorem buildProject_fresh (generation : ℕ) (cancellable : Bool)
    (retained : Option (Retained S A C)) (given : Given offers kept.1.1 kept.1.2.1)
    (current : ∀ session : NativeSession S O A C R F B I τ, held session = kept →
      Current tools kept.1.2.1 (sortedSources session) retained) :
    Meets (Mid offers kept) (buildProject tools ts generation cancellable retained)
      (Builds offers kept generation) := by
  have failing : ∀ (error : BackendError ε) (session : NativeSession S O A C R F B I τ),
      Mid offers kept session → Builds offers kept generation (.error error) session :=
    fun _ _ mid => ⟨mid, nofun⟩
  have polled := logged_of_frames offers
    (checkCancelled_frames (O := O) bare_blind ts cancellable) kept
  refine .read_bind fun session => ?_
  suffices rest : held session = kept → Meets (Mid offers kept) _ (Builds offers kept generation) from
    fun state ⟨mid, same⟩ => rest (same ▸ mid.2) state mid
  intro same
  subst same
  refine .bind _ polled failing fun _ => ?_
  refine .bind _ (stage_fresh (fun cache sound => prepareAst_eq sound _) _)
    (fun _ _ mid => failing _ _ mid.2) fun asts => .pull fun parsed => ?_
  refine .bind _ polled failing fun _ => ?_
  refine .bind _ (stage_fresh (fun cache sound => prepareCompiler_eq sound _) _)
    (fun _ _ mid => failing _ _ mid.2) fun executions => .pull fun compiled => ?_
  refine .bind _ polled failing fun _ => ?_
  refine .bind (fun result state => result = _ ∧ Mid offers (held session) state) (.ofExcept
    fun _ mid => ⟨rfl, mid⟩) (fun _ _ mid => failing _ _ mid.2) fun made =>
      .pull fun assembled => ?_
  have facts : Facts tools session.programHashes generation (sortedSources session)
      (mergeFiles generation retained (sortedSources session) made) :=
    mergeFiles_facts (current session rfl)
      (assembleFiles_ok_iff.mp ⟨asts, executions, parsed.symm, compiled.symm, assembled.symm⟩)
  obtain ⟨ofSources, offered⟩ := facts_sources given facts
  refine .bind _ polled failing fun _ => ?_
  refine .bind _ (stage_fresh
    (fun cache sound => semanticDemandGroups_eq sound offered session.semanticDemandOptions) _)
    (fun _ _ mid => failing _ _ mid.2) fun groups => .pull fun planned => ?_
  refine .modify_bind (Mid offers (held session)) ?_ ?_
  · rintro state ⟨logged, same⟩
    refine ⟨⟨logged.cache, fun entry member => ?_⟩, same⟩
    rcases mem_append.mp member with old | new
    · exact logged.built entry old
    · obtain rfl := mem_singleton.mp new
      exact freshBuild_eq facts offered planned.symm
  refine .bind _ (logged_of_frames offers (ask_frames bare_blind _) _) failing fun table => ?_
  refine .bind _ polled failing fun _ => ?_
  refine .bind _ (stage_logged (fun cache sound =>
    soundCache_of_frames sound (hydrateRows_frames _ _ cache)) _) failing fun rows => ?_
  refine .bind (fun result state => result = _ ∧ Mid offers (held session) state) (.ofExcept
    fun _ mid => ⟨rfl, mid⟩) (fun _ _ mid => failing _ _ mid.2) fun joined =>
      .pull fun sorted => ?_
  refine .pure fun state mid => ⟨mid, fun facts same => ?_⟩
  cases same
  refine ⟨rfl, fun file member => ofSources file ?_⟩
  rw [join_files sorted.symm] at member
  exact (sortByKey_perm FileFacts.path _).mem_iff.mp member

def LastOf (tools : Tools S O A C R F ε) (current : Overlay S O)
    (last : Option (ProjectFacts S A C F B I)) : Prop :=
  ∀ facts, last = some facts → facts.generation ≤ current.2.2 ∧
    (facts.generation = current.2.2 → FactsOf tools current.1 current.2.1 facts.files)

structure Sound (offers : Offers tools) (session : NativeSession S O A C R F B I τ) : Prop where
  logged : Logged offers session
  given : Given offers session.sources session.programHashes
  last : LastOf tools (overlay session) session.lastFacts

private theorem current_none {programHashes : Finmap fun _ : Path => Key} (sources : List (SourceFile S O)) :
    Current tools programHashes sources (none : Option (Retained S A C)) := fun _ _ _ => nofun

private theorem sound_iff : Sound offers session ↔ Logged offers session ∧
      Given offers (held session).1.1 (held session).1.2.1 ∧
      LastOf tools (held session).1 (held session).2.1 :=
  ⟨fun sound => ⟨sound.logged, sound.given, sound.last⟩, fun sound => ⟨sound.1, sound.2.1, sound.2.2⟩⟩

private theorem sound_of_frames {step : Step S O A C R F B I ε τ α} (frames : Frames bare step) :
    Stays (Sound offers) step := by
  intro session sound
  obtain ⟨logged, same⟩ := logged_of_frames offers frames (held session) session ⟨sound.logged, rfl⟩
  rw [sound_iff, same]
  exact ⟨logged, sound.given, sound.last⟩

variable {facts : ProjectFacts S A C F B I}

private theorem lastOf_some {current : Overlay S O} (generation : facts.generation = current.2.2)
    (files : FactsOf tools current.1 current.2.1 facts.files) :
    LastOf tools current (some facts) := by
  intro other same
  cases same
  exact ⟨generation.le, fun _ => files⟩

private theorem sound_setLast (logged : Logged offers session)
    (given : Given offers session.sources session.programHashes)
    (good : facts.generation = session.generation ∧
      FactsOf tools session.sources session.programHashes facts.files) :
    Sound offers { session with lastFacts := some facts } :=
  ⟨⟨logged.cache, logged.built⟩, given, lastOf_some good.1 good.2⟩

private theorem attested_files (facts : ProjectFacts S A C F B I) (edited : Option (List Path)) :
    Yields (fun _ => True) (attested ts facts edited : Step S O A C R F B I ε τ _) fun after _ =>
      after.generation = facts.generation ∧ after.files = facts.files := by
  refine .bind (fun _ _ => True) (fun _ _ _ _ => trivial) fun _ => ?_
  split
  · exact .pure fun _ _ => ⟨rfl, rfl⟩
  · refine .bind (fun _ _ => True) (fun _ _ _ _ => trivial) fun index => ?_
    exact .modify_bind (fun _ => True) (fun _ _ => trivial) (.pure fun _ _ => ⟨rfl, rfl⟩)

private theorem attested_builds (edited : Option (List Path))
    (good : facts.generation = generation ∧ FactsOf tools kept.1.1 kept.1.2.1 facts.files) :
    Meets (Mid offers kept) (attested ts facts edited) (Builds offers kept generation) := by
  intro session mid
  refine ⟨logged_of_frames offers (attested_frames bare_blind ts (fun _ _ => rfl) facts edited) kept
    session mid, fun after made => ?_⟩
  obtain ⟨same, files⟩ := attested_files ts facts edited session trivial after made
  exact ⟨same.trans good.1, files ▸ good.2⟩

private theorem analyze_sound (cancellable : Bool) :
    Stays (Sound offers) (analyze tools ts cancellable) := by
  refine Meets.bind _ (sound_of_frames (checkCancelled_frames bare_blind ts cancellable))
    (fun _ _ sound => sound) fun _ => Meets.read_bind fun session => ?_
  split
  · exact .pure fun _ mid => mid.1
  suffices rest : Sound offers session →
      Meets (Mid offers (held session)) _ fun _ => Sound offers from
    fun state ⟨sound, same⟩ => rest (same ▸ sound) state ⟨sound.logged, congrArg held same⟩
  intro sound
  have unbuilt : ∀ state : NativeSession S O A C R F B I τ, Mid offers (held session) state →
      Sound offers state := fun state mid => sound_iff.mpr (mid.2 ▸ ⟨mid.1, sound.given, sound.last⟩)
  refine .bind (Builds offers (held session) session.generation)
    (buildProject_fresh ts _ _ _ sound.given fun _ _ => current_none _)
    (fun _ state built => unbuilt state built.1) fun facts => ?_
  refine .weaken (.pull fun good => ?_)
    (fun state built => ⟨built.2 facts rfl, built.1⟩) fun _ _ sound => sound
  refine .bind (Builds offers (held session) session.generation)
    (attested_builds ts none good) (fun _ state built => unbuilt state built.1) fun facts => ?_
  refine .modify_bind (Sound offers) (fun state built => ?_) (.pure fun _ sound => sound)
  obtain ⟨⟨logged, same⟩, good⟩ := built
  have overlays : (overlay session) = overlay state := (congrArg Prod.fst same).symm
  refine sound_setLast logged (unbuilt state ⟨logged, same⟩).given ?_
  have made := good facts rfl
  rw [show (held session).1 = overlay session from rfl, overlays] at made
  exact ⟨made.1.trans (congrArg (fun view => view.2.2) overlays), made.2⟩

section

/-- An edit under way over `old`: its changes are applied, the earlier facts are still those of the
old sources, and the generation is theirs or has moved on. -/
structure Going (offers : Offers tools) (old applied : Overlay S O)
    (editing : Editing S O A C R F B I τ T) : Prop where
  ahead : Ahead applied editing
  logged : Logged offers editing.session
  last : LastOf tools old editing.session.lastFacts
  generation : editing.session.generation = old.2.2 ∨ editing.session.generation = old.2.2 + 1

variable {old applied : Overlay S O} {editing : Editing S O A C R F B I τ T}

private theorem Going.of_held (going : Going offers old applied editing) (logged : Logged offers session)
    (same : held session = held editing.session) :
    Going offers old applied { editing with session } := by
  have sources : session.sources = editing.session.sources := congrArg (fun view => view.1.1) same
  have hashes : session.programHashes = editing.session.programHashes :=
    congrArg (fun view => view.1.2.1) same
  have generation : session.generation = editing.session.generation :=
    congrArg (fun view => view.1.2.2) same
  have last : session.lastFacts = editing.session.lastFacts := congrArg (fun view => view.2.1) same
  exact ⟨⟨sources.trans going.ahead.1, hashes.trans going.ahead.2.1, fun unlanded =>
    generation.trans (going.ahead.2.2 unlanded)⟩, logged, last ▸ going.last,
    generation ▸ going.generation⟩

private theorem going_of_frames {step : Step S O A C R F B I ε τ α} (frames : Frames bare step)
    (landed : Bool) :
    Stays (fun editing : Editing S O A C R F B I τ T => Going offers old applied editing ∧
        editing.updateLanded = landed) (onSession step) := by
  rintro editing ⟨going, same⟩
  obtain ⟨logged, kept⟩ := logged_of_frames offers frames (held editing.session) editing.session
    ⟨going.logged, rfl⟩
  exact ⟨going.of_held logged kept, same⟩

def Touches (paths : List Path) (old applied : Overlay S O) : Prop :=
  ∀ path ∉ paths, applied.1.lookup path = old.1.lookup path ∧
    applied.2.1.lookup path = old.2.1.lookup path

theorem retained_file {changed : List Path} {path : Path}
    {previous : FileFacts S A C} (found : Retained.file (some ⟨files, changed⟩) path = some previous) :
    previous ∈ files ∧ previous.path = path ∧ path ∉ changed := by
  unfold Retained.file at found
  simp only [Option.bind_eq_bind, Option.bind_some, Option.bind_eq_some_iff,
    Option.ite_none_left_eq_some, Option.some.injEq] at found
  obtain ⟨facts, known, unchanged, rfl⟩ := found
  obtain ⟨facts', member, same⟩ := mem_map.mp (Foundation.Table.mem_of_lookup_collect known)
  cases same
  exact ⟨member, rfl, unchanged⟩

private theorem restoreOverlay_logged (displaced : List (Displaced S O)) (logged : Logged offers session) :
    Logged offers (restoreOverlay displaced session) ∧
      (restoreOverlay displaced session).lastFacts = session.lastFacts :=
  foldlRecOn (motive := fun held => Logged offers held ∧ held.lastFacts = session.lastFacts)
    displaced _ ⟨logged, rfl⟩ fun _ kept entry _ =>
    ⟨⟨kept.1.cache.invalidatePath entry.1, kept.1.built⟩, kept.2⟩

private theorem applyOverlay_logged (changes : List (SourceChange S O)) (logged : Logged offers session) :
    Logged offers (applyOverlay changes session).2 ∧
      (applyOverlay changes session).2.lastFacts = session.lastFacts := by
  rw [applyOverlay_snd]
  exact foldlRecOn (motive := fun held => Logged offers held ∧ held.lastFacts = session.lastFacts)
    changes _ ⟨logged, rfl⟩ fun _ kept change _ =>
    ⟨⟨kept.1.cache.invalidatePath change.path, kept.1.built⟩, kept.2⟩

section

variable {wire : List (WireChange S)} (given : Given offers applied.1 applied.2.1)

include given

private theorem Going.sound (going : Going offers old applied editing)
    (moved : editing.session.generation = old.2.2 + 1) : Sound offers editing.session := by
  refine ⟨going.logged, ?_, fun facts is_last => ?_⟩
  · rw [going.ahead.1, going.ahead.2.1]
    exact given
  · have older := (going.last facts is_last).1
    have moved : (overlay editing.session).2.2 = old.2.2 + 1 := moved
    exact ⟨by omega, fun same => by omega⟩

private theorem finishEdit_sound
    (good : facts.generation = old.2.2 + 1 ∧ FactsOf tools applied.1 applied.2.1 facts.files) :
    Meets (fun editing : Editing S O A C R F B I τ T => Going offers old applied editing ∧
        editing.session.generation = old.2.2 + 1) (finishEdit ts wire facts)
      fun _ editing => Sound offers editing.session := by
  refine .bind (fun result editing => (Going offers old applied editing ∧
      editing.session.generation = old.2.2 + 1) ∧ ∀ after, result = .ok after →
        after.generation = old.2.2 + 1 ∧ FactsOf tools applied.1 applied.2.1 after.files) ?_
    (fun error editing held => held.1.1.sound given held.1.2) fun facts => ?_
  · rintro editing ⟨going, moved⟩
    have sources := going.ahead.1
    have hashes := going.ahead.2.1
    have built : Builds offers (held editing.session) (old.2.2 + 1) _ _ :=
      attested_builds ts (some (wire.map WireChange.path)) (sources.symm ▸ hashes.symm ▸ good)
        editing.session ⟨going.logged, rfl⟩
    refine ⟨⟨going.of_held built.1.1 built.1.2, ?_⟩, fun after made => ?_⟩
    · exact (congrArg (fun view => view.1.2.2) built.1.2).trans moved
    · have kept := built.2 after made
      exact ⟨kept.1, sources ▸ hashes ▸ kept.2⟩
  · refine .modify_bind (fun editing => Sound offers editing.session) ?_
      (.read_bind fun _ => .pure fun _ mid => mid.1)
    rintro editing ⟨⟨going, moved⟩, made⟩
    obtain ⟨generation, files⟩ := made facts rfl
    rw [← going.ahead.1, ← going.ahead.2.1] at given files
    exact sound_setLast going.logged given ⟨generation.trans moved.symm, files⟩

variable (touches : Touches (wire.map WireChange.path) old applied)

include touches

private theorem retained_current {last : Option (ProjectFacts S A C F B I)} (lastOf : LastOf tools old last)
    (level : generation = old.2.2 ∨ generation = old.2.2 + 1)
    (sources : session.sources = applied.1) : Current tools applied.2.1 (sortedSources session)
      ((last.filter fun facts => facts.generation = generation).map fun facts =>
        ⟨facts.files, wire.map WireChange.path⟩) := by
  intro file member previous found
  cases kept : last.filter fun facts => decide (facts.generation = generation) with
  | none => rw [kept] at found; exact nomatch found
  | some facts =>
    rw [kept, Option.map_some] at found
    obtain ⟨inside, path, untouched⟩ := retained_file found
    obtain ⟨is_last, same⟩ := Option.filter_eq_some_iff.mp kept
    have current : facts.generation = old.2.2 := by
      have older := (lastOf facts is_last).1
      have here := of_decide_eq_true same
      omega
    obtain ⟨source, known, derived⟩ := (lastOf facts is_last).2 current previous inside
    obtain ⟨where_, there⟩ := mem_sortedSources.mp member
    rw [sources] at there
    have at_path : where_ = file.path := (offers.path_eq (given where_ file there)).symm
    subst at_path
    obtain ⟨same_source, same_hash⟩ := touches file.path untouched
    rw [path, ← same_source, there] at known
    cases known
    rwa [digestOf, same_hash]

private theorem buildProject_going (nextGeneration : ℕ) (cancellable : Bool)
    (session : NativeSession S O A C R F B I τ) :
    Meets (fun editing : Editing S O A C R F B I τ T =>
        (Going offers old applied editing ∧ editing.updateLanded) ∧ editing.session = session)
      (onSession (buildProject tools ts nextGeneration cancellable
        ((session.lastFacts.filter fun facts => facts.generation = session.generation).map
          fun facts => ⟨facts.files, wire.map WireChange.path⟩)))
      fun result editing => (Going offers old applied editing ∧ editing.updateLanded) ∧
        ∀ facts, result = .ok facts → facts.generation = nextGeneration ∧
          FactsOf tools applied.1 applied.2.1 facts.files := by
  rintro editing ⟨⟨going, landed⟩, rfl⟩
  have sources := going.ahead.1
  have hashes := going.ahead.2.1
  have built : Builds offers (held editing.session) nextGeneration _ _ :=
    buildProject_fresh ts nextGeneration cancellable _ (by
      show Given offers editing.session.sources editing.session.programHashes
      rw [sources, hashes]
      exact given) (fun state same => by
      show Current tools editing.session.programHashes (sortedSources state) _
      rw [hashes]
      exact retained_current given touches going.last going.generation
        ((congrArg (fun view => view.1.1) same).trans sources)) editing.session
      ⟨going.logged, rfl⟩
  refine ⟨⟨going.of_held built.1.1 built.1.2, landed⟩, fun facts made => ?_⟩
  have good := built.2 facts made
  exact ⟨good.1, sources ▸ hashes ▸ good.2⟩

variable {displaced : List (Displaced S O)}
  (undone : ∀ session : NativeSession S O A C R F B I τ, overlay session = applied →
    overlay (restoreOverlay displaced session) = old)
  (before : Given offers old.1 old.2.1)

include undone before

private theorem fresh_rule (cancellable : Bool) :
    EditRule (T := T) tools ts (old.2.2 + 1) wire displaced cancellable (Going offers old applied)
      (fun editing => Going offers old applied editing ∧ editing.updateLanded)
      (fun facts => facts.generation = old.2.2 + 1 ∧ FactsOf tools applied.1 applied.2.1 facts.files)
      (fun _ editing => Sound offers editing.session) where
  landed_iff _ := .rfl
  started _ going := ⟨going.ahead, going.logged, going.last, going.generation⟩
  sent := by
    refine (going_of_frames (ask_frames bare_blind _) false).relax ?_
    rintro (error | _) editing ⟨going, -⟩
    · exact going
    · exact fun _ => ⟨⟨⟨going.ahead.1, going.ahead.2.1, fun landed => nomatch landed⟩,
        going.logged, going.last, going.generation⟩, rfl⟩
  polled := going_of_frames (checkCancelled_frames bare_blind ts cancellable) true
  built := buildProject_going ts given touches (old.2.2 + 1) cancellable
  followed := fun _ ⟨going, flag⟩ => ⟨⟨⟨going.ahead.1, going.ahead.2.1, fun unlanded =>
    absurd (flag.symm.trans unlanded) (by decide)⟩, ⟨going.logged.cache, going.logged.built⟩,
    going.last, .inr rfl⟩, flag⟩
  finished facts good := (finishEdit_sound ts given good).strengthen (fun _ held => ⟨held.1.1, held.2⟩)
  settled _ _ held generation _ := held.1.sound given generation
  undone error editing going flag := by
    obtain ⟨logged, last⟩ := restoreOverlay_logged displaced going.logged
    have back := undone editing.session (Prod.ext going.ahead.1
      (Prod.ext going.ahead.2.1 (going.ahead.2.2 flag)))
    refine ⟨logged, ?_, ?_⟩
    · rw [show (restoreOverlay displaced editing.session).sources = old.1 from
        congrArg Prod.fst back, show (restoreOverlay displaced editing.session).programHashes =
        old.2.1 from congrArg (fun view => view.2.1) back]
      exact before
    · rw [back, last]
      exact going.last

end

def Offering (offers : Offers tools) (changes : List (SourceChange S O)) : Prop :=
  ∀ change ∈ changes, ∀ text, change.source = some text →
    offers.offered change.path (tools.hash text) ⟨change.path, text, change.compilerOptions⟩

variable {changes : List (SourceChange S O)}

private theorem applyOverlay_given (offering : Offering offers changes)
    (given : Given offers session.sources session.programHashes) :
    Given offers (applyOverlay changes session).2.sources
      (applyOverlay changes session).2.programHashes := by
  induction changes generalizing session with
  | nil => exact given
  | cons change changes ih =>
    obtain ⟨here, later⟩ := forall_mem_cons.mp offering
    refine ih later fun path file found => ?_
    have digest : ∀ other, (applyChange session change).programHashes.lookup other =
        if other = change.path then none else session.programHashes.lookup other :=
      fun other => Foundation.Table.lookup_erase_eq _ _ _
    have source : (applyChange session change).sources = applySource session.sources change := rfl
    by_cases same : path = change.path
    · subst same
      rw [source, applySource] at found
      split at found
      · next text some_text =>
          rw [Finmap.lookup_insert] at found
          cases found
          rw [digestOf, digest, if_pos rfl]
          exact here text some_text
      · rw [Finmap.lookup_erase] at found
        cases found
    · rw [source, applySource_lookup_of_ne _ same] at found
      have offered := given path file found
      have there : file.path ≠ change.path := fun equal => same ((offers.path_eq offered).symm.trans equal)
      rwa [digestOf, digest, if_neg there]

private theorem applyOverlay_touches (changes : List (SourceChange S O))
    (session : NativeSession S O A C R F B I τ) :
    Touches ((changes.map wireChange).map WireChange.path) (overlay session)
      (overlay (applyOverlay changes session).2) := by
  intro path untouched
  rw [map_map] at untouched
  constructor
  · exact (congrArg (Finmap.lookup path) (applyOverlay_sources changes session)).trans
      (applySources_lookup_of_notMem untouched _)
  · exact (applyOverlay_programHashes changes session path).trans (if_neg untouched)

private theorem editDuring_sound (cancellable : Bool) (during : T)
    (abandon : T → Bool) (restorable : Restorable session.sources changes)
    (offering : Offering offers changes) (sound : Sound offers session) :
    Sound offers (editDuring tools ts changes cancellable during abandon (.start session)).2.session := by
  let Ready := fun editing : Editing S O A C R F B I τ T =>
    Sound offers editing.session ∧ overlay editing.session = overlay session ∧
      editing.updateLanded = false
  suffices whole : Meets Ready (editDuring tools ts changes cancellable during abandon)
      fun _ editing => Sound offers editing.session from whole (.start session) ⟨sound, rfl, rfl⟩
  refine .bind (fun _ => Ready) (fun editing ready => ?_) (fun _ _ ready => ready.1) fun _ => ?_
  · exact ⟨sound_of_frames (checkCancelled_frames bare_blind ts cancellable) editing.session ready.1,
      (checkCancelled_frames overlay_blind.toBlind ts cancellable editing.session).trans ready.2.1, ready.2.2⟩
  split
  · exact .bind (fun _ editing => Sound offers editing.session)
      (fun editing ready => analyzeWithRecovery_meets (analyze_sound ts cancellable)
        (fun _ _ sound => sound) _ editing.session ready.1)
      (fun _ _ sound => sound) fun _ => .pure fun _ sound => sound
  refine .read_bind fun current => ?_
  split
  · exact .throw fun _ mid => mid.1.1
  rintro editing ⟨⟨ready, same, unlanded⟩, rfl⟩
  have back : Restorable editing.session.sources changes := by
    rw [show editing.session.sources = session.sources from congrArg Prod.fst same]
    exact restorable
  obtain ⟨logged, last⟩ := applyOverlay_logged changes ready.logged
  have rule := fresh_rule (T := T) ts (applyOverlay_given offering ready.given)
    (applyOverlay_touches changes editing.session)
    (fun state applied => (restoreOverlay_overlay_iff changes applied).mpr back) ready.given
    cancellable
  refine rule.editLoop abandon recoveryAttempts _ ⟨⟨rfl, rfl, fun _ => rfl⟩, logged, ?_, .inl ?_⟩
  · exact last ▸ ready.last
  · exact applyOverlay_generation changes editing.session

end

section

structure Opening (S O : Type) where
  projectId : Key
  sources : List (SourceFile S O)
  programHashes : Finmap fun _ : Path => Key
  plain : ∀ path digest, programHashes.lookup path = some digest → nul ∉ digest

inductive Call (S O T : Type)
  | edit (changes : List (SourceChange S O)) (cancellable : Bool) (during : T) (abandon : T → Bool)
  | analyze (cancellable : Bool)
  | setSemanticDemandOptions (options : Bool)

def Call.changes : Call S O T → List (SourceChange S O)
  | .edit changes _ _ _ => changes
  | _ => []

def opened (opening : Opening S O) (typescript : τ) : NativeSession S O A C R F B I τ :=
  openRewritten opening.projectId opening.sources opening.programHashes typescript

def perform (tools : Tools S O A C R F ε) (session : NativeSession S O A C R F B I τ) :
    Call S O T → NativeSession S O A C R F B I τ
  | .edit changes cancellable during abandon =>
    (editDuring tools ts changes cancellable during abandon (.start session)).2.session
  | .analyze cancellable => (analyze tools ts cancellable session).2
  | .setSemanticDemandOptions options => session.setSemanticDemandOptions options

def Undoable (tools : Tools S O A C R F ε) :
    NativeSession S O A C R F B I τ → List (Call S O T) → Prop
  | _, [] => True
  | session, call :: calls =>
    Restorable session.sources call.changes ∧ Undoable tools (perform ts tools session call) calls

/-- A source the run gives for a path, at the opening or in an edit, with the digest the program has
for it. -/
def OfferedIn (tools : Tools S O A C R F ε) (opening : Opening S O) (calls : List (Call S O T))
    (path : Path) (digest : Key) (file : SourceFile S O) : Prop :=
  ((Foundation.Table.collect (opening.sources.map fun source => (source.path, source))).lookup path =
      some file ∧ digest = digestOf tools opening.programHashes file) ∨
    ∃ call ∈ calls, ∃ change ∈ call.changes, ∃ text, change.source = some text ∧
      path = change.path ∧ digest = tools.hash text ∧
      file = ⟨change.path, text, change.compilerOptions⟩

/-- Paths are given in normal form, and sources of one path and digest are one text with the same
compiler options. -/
structure Consistent (tools : Tools S O A C R F ε) (opening : Opening S O)
    (calls : List (Call S O T)) : Prop where
  normal : ∀ path digest file, OfferedIn tools opening calls path digest file →
    tools.normalizePath path = path
  agree : ∀ path digest file other, OfferedIn tools opening calls path digest file →
    OfferedIn tools opening calls path digest other → tools.request file = tools.request other

theorem collected_path {sources : List (SourceFile S O)} {path : Path}
    (found : (Foundation.Table.collect (sources.map fun source => (source.path, source))).lookup path =
      some file) : file.path = path := by
  obtain ⟨source, -, same⟩ := mem_map.mp (Foundation.Table.mem_of_lookup_collect found)
  cases same
  rfl

def offersOf {opening : Opening S O} {calls : List (Call S O T)}
    (consistent : Consistent tools opening calls) : Offers tools where
  offered := OfferedIn tools opening calls
  path_eq := by
    rintro path digest file (⟨found, -⟩ | ⟨call, -, change, -, text, -, rfl, -, rfl⟩)
    · exact collected_path found
    · rfl
  normal := consistent.normal _ _ _
  plain := by
    rintro path digest file (⟨-, rfl⟩ | ⟨call, -, change, -, text, -, -, rfl, -⟩)
    · rw [digestOf]
      cases known : opening.programHashes.lookup file.path with
      | none => exact tools.hash_plain _
      | some digest => exact opening.plain _ _ known
    · exact tools.hash_plain _
  agree := consistent.agree _ _ _ _

private theorem opened_sound {opening : Opening S O} {calls : List (Call S O T)}
    (consistent : Consistent tools opening calls) (typescript : τ) :
    Sound (offersOf consistent) (opened opening typescript : NativeSession S O A C R F B I τ) :=
  ⟨⟨soundCache_empty _, nofun⟩, fun _ _ found => .inl ⟨found, rfl⟩, nofun⟩

private theorem setSemanticDemandOptions_sound (options : Bool) (sound : Sound offers session) :
    Sound offers (session.setSemanticDemandOptions options) := by
  refine ⟨⟨sound.logged.cache, sound.logged.built⟩, sound.given, ?_⟩
  show LastOf tools (overlay session) (if _ then none else session.lastFacts)
  split
  · exact nofun
  · exact sound.last

private theorem perform_sound {call : Call S O T} (restorable : Restorable session.sources call.changes)
    (offering : Offering offers call.changes) (sound : Sound offers session) :
    Sound offers (perform ts tools session call) := by
  cases call with
  | edit changes cancellable during abandon =>
    exact editDuring_sound ts cancellable during abandon restorable offering sound
  | analyze cancellable => exact analyze_sound ts cancellable session sound
  | setSemanticDemandOptions options => exact setSemanticDemandOptions_sound options sound

private theorem foldl_sound (calls : List (Call S O T)) (undoable : Undoable ts tools session calls)
    (offering : ∀ call ∈ calls, Offering offers call.changes) (sound : Sound offers session) :
    Sound offers (calls.foldl (perform ts tools) session) := by
  induction calls generalizing session with
  | nil => exact sound
  | cons call calls ih =>
    obtain ⟨here, later⟩ := forall_mem_cons.mp offering
    exact ih undoable.2 later (perform_sound ts undoable.1 here sound)

/-- In every run with consistent sources and undoable edits, every build joins the files and sends
the demand runs of a build with empty caches and nothing retained. -/
theorem builds_are_fresh (opening : Opening S O) (typescript : τ) (calls : List (Call S O T))
    (consistent : Consistent tools opening calls)
    (undoable : Undoable ts tools (opened opening typescript) calls) :
    ∀ entry ∈ (calls.foldl (perform ts tools) (opened opening typescript)).built,
      freshBuild tools entry.generation entry.programHashes entry.options entry.sources =
        .ok (entry.files, entry.groups) := by
  have offering : ∀ call ∈ calls, Offering (offersOf consistent) call.changes :=
    fun call member change inside text some_text =>
      .inr ⟨call, member, change, inside, text, some_text, rfl, rfl, rfl⟩
  exact (foldl_sound ts calls undoable offering (opened_sound consistent typescript)).logged.built

/-- A program that holds one file, whose text never changes, at the generation of its updates. -/
def oneFile : TypeFacts Bool Unit Unit Bool Unit Unit Unit Unit ℕ where
  updateDuring _ := Act.modify (· + 1)
  semanticGrouped _ := fun generation =>
    (.ok ⟨['p'], generation, [(['a'], ['a'])], [], ()⟩, generation)
  moduleGraph _ := pure ⟨[], []⟩
  transform _ := pure ⟨⟩
  restartEpoch _ := 0
  lastUpdateGraph _ := none
  cancelled generation := (false, generation)
  isTransportFailure _ := false

def editOne : Call Bool Unit Unit := .edit [⟨['a'], 1, some false, ()⟩] false () fun _ => false

theorem plain_empty (path : Path) (digest : Key)
    (known : (∅ : Finmap fun _ : Path => Key).lookup path = some digest) : nul ∉ digest := nomatch known

def openPlain : Opening Bool Unit := ⟨['p'], [⟨['a'], false, ()⟩], ∅, plain_empty⟩

private theorem openPlain_offered {path : Path} {digest : Key} {file : SourceFile Bool Unit}
    (offered : OfferedIn twoTexts openPlain [.analyze false, editOne] path digest file) :
    path = ['a'] ∧ file = ⟨['a'], false, ()⟩ := by
  rcases offered with ⟨found, -⟩ | ⟨call, member, change, inside, text, some_text, rfl, -, rfl⟩
  · have member := Foundation.Table.mem_of_lookup_collect found
    simpa [openPlain] using member
  · simp only [mem_cons, not_mem_nil, or_false] at member
    rcases member with rfl | rfl
    · exact nomatch inside
    · obtain rfl := mem_singleton.mp inside
      cases some_text
      exact ⟨rfl, rfl⟩

theorem builds_are_fresh_again :
    let session := ([.analyze false, editOne].foldl (perform oneFile twoTexts) (opened openPlain 1))
    session.built.length = 2 ∧ ∀ entry ∈ session.built,
      freshBuild twoTexts entry.generation entry.programHashes entry.options entry.sources =
        .ok (entry.files, entry.groups) := by
  refine ⟨by decide +kernel, builds_are_fresh oneFile openPlain 1 _ ⟨?_, ?_⟩ ?_⟩
  · intro path digest file offered
    rw [(openPlain_offered offered).1]
    decide
  · intro path digest file other offered again
    rw [(openPlain_offered offered).2, (openPlain_offered again).2]
  · exact ⟨fun _ => rfl, fun _ => if_neg not_mem_nil, trivial⟩

def openRewrite : Opening Bool Unit where
  projectId := ['p']
  sources := [⟨['a'], true, ()⟩]
  programHashes := Finmap.singleton ['a'] ['a']
  plain path digest known := by
    have member := Finmap.mem_of_lookup_eq_some known
    rw [Finmap.mem_singleton] at member
    subst member
    rw [Finmap.lookup_singleton_eq] at known
    exact Option.some.inj known ▸ by decide

/-- An edit from the rewrite to the program's own text sends the demands of the rewrite. -/
theorem edit_sends_rewritten_demands :
    let session := ([.analyze false, editOne].foldl (perform oneFile twoTexts) (opened openRewrite 1))
    session.built.map Built.groups = [[(['a'], true)], [(['a'], true)]] ∧
      (session.built.getLast?.map fun entry =>
        (freshBuild twoTexts entry.generation entry.programHashes entry.options entry.sources).toOption.map
          Prod.snd) = some (some [(['a'], false)]) := by
  decide +kernel

end

end SolidChecker.Backend.NativeSession
