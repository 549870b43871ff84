/- source: solid-facts-backend/src/lib.rs -/

import SolidChecker.Backend.FreshRuns

namespace SolidChecker.Backend.NativeSession

open List

open Foundation (Act)
open Foundation.Act (Frames Meets Stays)
open Foundation.Grouping (sortByKey sortByKey_perm)
open Producer (Path)

variable {S O A C R F B I ε τ T : Type} {tools : Tools S O A C R F ε}

def noOffers (tools : Tools S O A C R F ε) : Offers tools where
  offered _ _ _ := False
  path_eq := False.elim
  normal := False.elim
  plain := False.elim
  agree := fun impossible => impossible.elim

def Placed (tools : Tools S O A C R F ε) (path : Path) (file : SourceFile S O) : Prop :=
  file.path = path ∧ tools.normalizePath path = path

structure Addressed (tools : Tools S O A C R F ε) (session : NativeSession S O A C R F B I τ) :
    Prop where
  sources : ∀ path file, session.sources.lookup path = some file → Placed tools path file
  cache : SoundCache (noOffers tools) session.cache

theorem addressed_of_frames {α : Type} {step : Step S O A C R F B I ε τ α} (frames : Frames bare step) :
    Stays (Addressed tools) step := by
  intro session addressed
  have bared := frames session
  generalize (step session).2 = after at bared ⊢
  have cache : after.cache = session.cache := congrArg (fun view => view.cache) bared
  have sources : after.sources = session.sources := congrArg (fun view => view.sources) bared
  exact ⟨sources ▸ addressed.sources, cache ▸ addressed.cache⟩

variable {session : NativeSession S O A C R F B I τ}

private theorem sortedSources_paths
    (placed : ∀ path file, session.sources.lookup path = some file → Placed tools path file) :
    ((sortedSources session).map SourceFile.path).Nodup := by
  have same : (sortedSources session).map SourceFile.path = session.sources.keys.sort (· ≤ ·) := by
    unfold sortedSources
    have each : ∀ path ∈ session.sources.keys.sort (· ≤ ·),
        (session.sources.lookup path).map SourceFile.path = some path := by
      intro path member
      have known := (Foundation.Table.mem_keys_iff _ _).mp ((Finset.mem_sort _).mp member)
      obtain ⟨file, found⟩ := Option.ne_none_iff_exists'.mp known
      rw [found, Option.map_some, (placed path file found).1]
    rw [map_filterMap]
    exact (filterMap_congr each).trans filterMap_some
  rw [same]
  exact Finset.sort_nodup _ _

variable {retained : Option (Retained S A C)}

private theorem retained_path {path : Path} {previous : FileFacts S A C}
    (found : Retained.file retained path = some previous) : previous.path = path := by
  cases retained with
  | none => exact nomatch found
  | some retained =>
    exact (retained_file found).2.1

variable {made : List (FileFacts S A C)}

private theorem mergeFiles_paths {generation : ℕ} {sources : List (SourceFile S O)}
    (fresh : List.Forall₂ (fun file facts => facts.path = file.path) (pendingOf retained sources) made) :
    (mergeFiles generation retained sources made).map FileFacts.path =
      sources.map SourceFile.path := by
  induction sources generalizing made with
  | nil => rfl
  | cons file sources ih =>
    cases found : Retained.file retained file.path with
    | some previous =>
      rw [pendingOf, filter_cons_of_neg (by simp [found])] at fresh
      simp only [mergeFiles, found, map_cons]
      exact congrArg₂ List.cons (retained_path found) (ih fresh)
    | none =>
      rw [pendingOf, filter_cons_of_pos (by simp [found])] at fresh
      obtain ⟨facts, rest, first, tail, rfl⟩ := forall₂_cons_left_iff.mp fresh
      simp only [mergeFiles, found, map_cons]
      exact congrArg₂ List.cons first (ih tail)

private theorem demandRuns_frames (options : Bool) (files : List (FileFacts S A C)) :
    Frames (fun cache => (cache.ast, cache.compiler))
      (demandRuns tools options files : Stage A C R F ε _) := by
  induction files with
  | nil => exact .pure _
  | cons file files ih =>
    rw [demandRuns]
    refine (Frames.read _).bind fun known => ?_
    split
    · exact ih
    · split
      · exact .throw _
      · exact .modify_bind (fun _ => rfl) ih

private theorem noOffers_sound {cache after : FactsCache A C R F} (sound : SoundCache (noOffers tools) cache)
    (same : (after.ast, after.compiler) = (cache.ast, cache.compiler)) :
    SoundCache (noOffers tools) after := by
  obtain ⟨ast, compiler⟩ := Prod.mk.inj same
  exact ⟨ast ▸ sound.ast, compiler ▸ sound.compiler, fun _ _ _ ⟨_, _, _, unoffered, _⟩ => unoffered.elim⟩

private theorem semanticDemandGroups_frames (files : List (FileFacts S A C)) (options : Bool) :
    Frames (fun cache => (cache.ast, cache.compiler))
      (semanticDemandGroups tools files options : Stage A C R F ε _) :=
  (demandRuns_frames _ _).bind fun _ => .read _

private theorem pending_paths (addressed : Addressed tools session)
    {programHashes : Finmap fun _ : Path => Key} {generation : ℕ}
    (facts : Facts tools programHashes generation (pendingOf retained (sortedSources session)) made) :
    List.Forall₂ (fun file facts => facts.path = file.path)
      (pendingOf retained (sortedSources session)) made := by
  refine forall₂_iff_zip.mpr ⟨facts.length_eq, fun {file made} member => ?_⟩
  have inside := mem_filter.mp (of_mem_zip member).1
  obtain ⟨path, found⟩ := mem_sortedSources.mp inside.1
  obtain ⟨rfl, normal⟩ := addressed.sources path file found
  exact ((forall₂_iff_zip.mp facts).2 member).1.path_eq normal

section

variable (ts : TypeFacts S A C R F B I ε τ)

private theorem stage_addressed {α : Type} {stage : Stage A C R F ε α} {expected : Except (BackendError ε) α}
    (works : ∀ cache, SoundCache (noOffers tools) cache →
      (stage cache).1 = expected ∧ SoundCache (noOffers tools) (stage cache).2) :
    Meets (Addressed tools) (withCache stage : Step S O A C R F B I ε τ α) fun result session =>
      result = expected ∧ Addressed tools session := fun _ addressed =>
  ⟨(works _ addressed.cache).1, addressed.sources, (works _ addressed.cache).2⟩

/-- Facts as a build makes them: of its generation, with distinct paths, not attested. -/
structure Unattested (generation : ℕ) (facts : ProjectFacts S A C F B I) : Prop where
  generation : facts.generation = generation
  distinct : (facts.files.map FileFacts.path).Nodup
  unresolved : facts.resolvedImports = none

def Scoped (tools : Tools S O A C R F ε) (generation : ℕ)
    (result : Except (BackendError ε) (ProjectFacts S A C F B I))
    (session : NativeSession S O A C R F B I τ) : Prop :=
  Addressed tools session ∧ ∀ facts, result = .ok facts → Unattested generation facts

theorem buildProject_scope (generation : ℕ) (cancellable : Bool)
    (retained : Option (Retained S A C)) :
    Meets (Addressed tools) (buildProject tools ts generation cancellable retained) (Scoped tools generation) := by
  have failing : ∀ (error : BackendError ε) (session : NativeSession S O A C R F B I τ),
      Addressed tools session → Scoped (F := F) (B := B) (I := I) tools generation (.error error)
        session := fun _ _ addressed => ⟨addressed, nofun⟩
  have polled : Stays (Addressed tools) (checkCancelled ts cancellable) := addressed_of_frames (checkCancelled_frames bare_blind ts cancellable)
  refine .read_bind fun session => ?_
  suffices rest : Addressed tools session → Meets (Addressed tools) _
      (Scoped tools generation) from
    fun state ⟨addressed, same⟩ => rest (same ▸ addressed) state addressed
  intro addressed
  refine .bind _ polled failing fun _ => ?_
  refine .bind _ (stage_addressed fun cache sound => prepareAst_eq sound _)
    (fun _ _ mid => failing _ _ mid.2) fun asts => .pull fun parsed => ?_
  refine .bind _ polled failing fun _ => ?_
  refine .bind _ (stage_addressed fun cache sound => prepareCompiler_eq sound _)
    (fun _ _ mid => failing _ _ mid.2) fun executions => .pull fun compiled => ?_
  refine .bind _ polled failing fun _ => ?_
  refine .bind (fun result state => result = _ ∧ Addressed tools state)
    (.ofExcept fun _ mid => ⟨rfl, mid⟩) (fun _ _ mid => failing _ _ mid.2) fun made =>
      .pull fun assembled => ?_
  have fresh : Facts tools session.programHashes generation
      (pendingOf retained (sortedSources session)) made :=
    assembleFiles_ok_iff.mp ⟨asts, executions, parsed.symm, compiled.symm, assembled.symm⟩
  have paths : ((mergeFiles generation retained (sortedSources session) made).map
      FileFacts.path).Nodup := by
    rw [mergeFiles_paths (pending_paths addressed fresh)]
    exact sortedSources_paths addressed.sources
  refine .bind _ polled failing fun _ => ?_
  refine .bind (fun _ => Addressed tools) (fun state addressed => ⟨addressed.sources, ?_⟩)
    failing fun groups => ?_
  · exact noOffers_sound addressed.cache (semanticDemandGroups_frames _ _ _)
  refine .modify_bind (Addressed tools) (fun _ addressed => ⟨addressed.sources, addressed.cache⟩) ?_
  refine .bind _ (addressed_of_frames (ask_frames bare_blind _)) failing fun table => ?_
  refine .bind _ polled failing fun _ => ?_
  refine .bind (fun _ => Addressed tools) (fun state addressed => ⟨addressed.sources, ?_⟩)
    failing fun rows => ?_
  · exact soundCache_of_frames addressed.cache (hydrateRows_frames _ _ _)
  refine .bind (fun result state => result = _ ∧ Addressed tools state)
    (.ofExcept fun _ mid => ⟨rfl, mid⟩) (fun _ _ mid => failing _ _ mid.2) fun joined =>
      .pull fun sorted => ?_
  refine .pure fun state mid => ⟨mid, fun facts same => ?_⟩
  cases same
  refine ⟨rfl, ?_, rfl⟩
  rw [join_files sorted.symm]
  exact ((sortByKey_perm FileFacts.path _).map _).nodup_iff.mpr paths

end

section

theorem applyOverlay_addressed {changes : List (SourceChange S O)}
    (normal : ∀ change ∈ changes, tools.normalizePath change.path = change.path)
    (addressed : Addressed tools session) : Addressed tools (applyOverlay changes session).2 ∧
      ∀ entry ∈ (applyOverlay changes session).1, ∀ file, entry.2.1 = some file →
        Placed tools entry.1 file := by
  induction changes generalizing session with
  | nil => exact ⟨addressed, fun _ member => absurd member not_mem_nil⟩
  | cons change changes ih =>
    obtain ⟨here, later⟩ := forall_mem_cons.mp normal
    have once : Addressed tools (applyChange session change) := by
      refine ⟨fun path file found => ?_, addressed.cache.invalidatePath change.path⟩
      replace found : (applySource session.sources change).lookup path = some file := found
      by_cases same : path = change.path
      · subst same
        rw [applySource] at found
        split at found
        · rw [Finmap.lookup_insert] at found
          cases found
          exact ⟨rfl, here⟩
        · rw [Finmap.lookup_erase] at found
          cases found
      · rw [applySource_lookup_of_ne _ same] at found
        exact addressed.sources path file found
    obtain ⟨after, displaced⟩ := ih later once
    refine ⟨after, forall_mem_cons.mpr ⟨fun file found => ?_, displaced⟩⟩
    exact addressed.sources change.path file found

theorem restoreOverlay_addressed {displaced : List (Displaced S O)}
    (placed : ∀ entry ∈ displaced, ∀ file, entry.2.1 = some file → Placed tools entry.1 file)
    (addressed : Addressed tools session) : Addressed tools (restoreOverlay displaced session) := by
  induction displaced generalizing session with
  | nil => exact addressed
  | cons entry displaced ih =>
    obtain ⟨here, later⟩ := forall_mem_cons.mp placed
    refine ih later ⟨fun path file found => ?_, addressed.cache.invalidatePath entry.1⟩
    rw [restoreEntry_sources_lookup] at found
    split at found
    · next same => exact same ▸ here file found
    · exact addressed.sources path file found

end

end SolidChecker.Backend.NativeSession
