/- source: apps/solid-typefacts/src/retained.rs, closure.rs -/

import SolidChecker.Producer.Build
import SolidChecker.Producer.PathVersions
import SolidChecker.Producer.Transition

namespace SolidChecker.Producer

open Foundation Foundation.Act List

structure Built (H F A : Type) where
  table : ProducerTable H (EntityFact F) A
  versioned : Bool

variable {β ω H K V W F A C X : Type}

def TransportChanges.Covers {E : Type} (manifest : TransportChanges)
    (base target : ProducerTable H E A) : Prop :=
  ∀ path, target.rows path ≠ base.rows path →
    path ∈ manifest.sourcePaths ∧ path ∈ manifest.entityPaths ∧ path ∈ manifest.filePaths

def TransportChanges.Names {E : Type} (manifest : TransportChanges) (base : ProducerTable H E A) :
    Prop :=
  base.stateId = manifest.baseStateId ∧ base.generation = manifest.baseGeneration

instance {E : Type} (manifest : TransportChanges) (base : ProducerTable H E A) :
    Decidable (manifest.Names base) := inferInstanceAs (Decidable (_ ∧ _))

theorem TransportChanges.Covers.applied {E : Type} {manifest : TransportChanges}
    {base target : ProducerTable H E A} (covers : manifest.Covers base target) :
    applyAll (planSparsePaths target manifest) base.rows = target.rows := by
  rw [planSparsePaths_rows]
  funext path
  by_cases differ : target.rows path = base.rows path
  · simp only [differ, ite_self]
  · obtain ⟨source, entity, file⟩ := covers path differ
    rw [if_pos source, if_pos entity, if_pos file]

variable {compiler : Compiler ω H K W F X} {passes : PassOutputs V W F X}
  {meaning extended : Path → ℕ → List (EntityFact F) × List (AsyncFunctionFact X)}
  {built : List (Built H F (AsyncFunctionFact X))}
  {closure : DemandClosure (Project ω W F X) H F (AsyncFunctionFact X)}

def WasBuilt (built : List (Built H F A)) (table : ProducerTable H (EntityFact F) A) : Prop :=
  ∃ one ∈ built, one.table.stateId = table.stateId ∧ one.table.generation = table.generation

variable (passes meaning built closure) in
/-- The tables a closure knows were built, with state ids of their own, and the path versions it
keeps describe one of them. -/
structure Traced : Prop where
  sound : closure.backend.perFile.Sound passes meaning
  numbered : ∀ one ∈ built, one.table.stateId ≤ closure.nextTableStateId
  distinct : (built.map fun one => one.table.stateId).Nodup
  current : ∀ table ∈ closure.table, WasBuilt built table
  previous : ∀ table ∈ closure.previousTable, WasBuilt built table
  described : ∀ stateId before, closure.pathVersions = some (stateId, before) →
    ∃ one ∈ built, one.table.stateId = stateId ∧
      before.Describe meaning closure.backend.perFile.versions.next one.table

variable (passes meaning extended) in
structure Moved (before after : PerFile W F X) : Prop where
  sound : after.Sound passes extended
  later : before.versions.next ≤ after.versions.next
  older : ∀ path version, version ≤ before.versions.next →
    extended path version = meaning path version

variable {state : PerFile W F X}

theorem Moved.refl (sound : state.Sound passes meaning) :
    Moved passes meaning meaning state state := ⟨sound, le_rfl, fun _ _ _ => rfl⟩

theorem Traced.moved (traced : Traced passes meaning built closure) {project : Project ω W F X}
    (moved : Moved passes meaning extended closure.backend.perFile project.perFile) :
    Traced passes extended built (closure.setBackend project) := by
  refine ⟨moved.sound, traced.numbered, traced.distinct, traced.current, traced.previous,
    fun stateId before found => ?_⟩
  obtain ⟨one, member, same, describe⟩ := traced.described stateId before found
  exact ⟨one, member, same, describe.extend moved.later moved.older⟩

section

variable {runs : List (Path × List (EntityDemand K))}

private theorem rebuildContributions_rows (cells : EntityCells F)
    {rows : List (List (EntityFact F))} {entities : List (Path × List (EntityFact F))}
    (rebuilt : rebuildContributions cells runs (rows.map RunAnswer.rows) = .ok entities) :
    entities = (runs.map Prod.fst).zip rows := by
  unfold rebuildContributions at rebuilt
  split at rebuilt
  · exact nomatch rebuilt
  · rw [zip_map_right, mapM_map] at rebuilt
    have each : ∀ (entry : (Path × List (EntityDemand K)) × List (EntityFact F))
        (result : Path × List (EntityFact F)),
        ((RunAnswer.rows entry.2).intoRows cells entry.1.1 entry.1.2).map
          (fun rows => (entry.1.1, rows)) = .ok result → id result = (entry.1.1, entry.2) :=
      fun entry result made => (Except.ok.inj made).symm
    have same := Grouping.mapM_map each rebuilt
    rw [map_id] at same
    rw [same, zip_map_left]
    rfl

theorem prepareRuns_paths {codec : Codec K C} {groups : List (DemandGroup K C)}
    {locations : List Location}
    (prepared : DemandClosure.prepareRuns codec groups = .ok (runs, locations)) :
    runs.map Prod.fst = groups.map DemandGroup.path := by
  unfold DemandClosure.prepareRuns at prepared
  cases located : groups.mapM (DemandGroup.asyncLocations codec) with
  | error error =>
    rw [located] at prepared
    exact nomatch prepared
  | ok locations =>
    cases expanded : groups.mapM fun group =>
        (group.expanded codec).map fun demands => (group.path, demands) with
    | error error =>
      rw [located, expanded] at prepared
      exact nomatch prepared
    | ok made =>
      rw [located, expanded] at prepared
      obtain ⟨rfl, -⟩ := Prod.mk.inj (Except.ok.inj prepared)
      refine Grouping.mapM_map (fun group run made => ?_) expanded
      cases found : group.expanded codec with
      | error error =>
        rw [found] at made
        exact nomatch made
      | ok demands =>
        rw [found] at made
        cases made
        rfl

end

namespace DemandClosure

structure Answer (runs : List (Path × List (EntityDemand K)))
    (entities : List (Path × List (EntityFact F))) (facts : List (Path × AsyncFunctionFact X))
    (state : PerFile W F X) : Prop where
  entities : ∀ path, (rowAt (entities.filter fun run => decide (run.2 ≠ [])) path).getD [] =
    (state.held path).1
  facts : ∀ path, asyncFactsAt facts path = (state.held path).2
  outside : ∀ path ∉ runs.map Prod.fst, (state.held path).1 = []

section

variable {runs : List (Path × List (EntityDemand K))} {locations : List Location}

private theorem answer_served (aligned : state.Aligned passes)
    (paths : state.servedPaths = runs.map Prod.fst) (ordered : (runs.map Prod.fst).Pairwise (· < ·))
    {facts : List (Path × AsyncFunctionFact X)}
    (held : ∀ path, asyncFactsAt facts path = (state.held path).2) :
    Answer runs ((runs.map Prod.fst).zip (state.served.map Served.rows)) facts state := by
  refine ⟨fun path => ?_, held, fun path absent => ?_⟩
  · rw [← paths] at ordered ⊢
    exact PerFile.rowAt_served aligned.length ordered path
  · rw [PerFile.held, PerFile.servedAt_absent (paths ▸ absent)]
    rfl

private theorem exactPaths_cases [DecidableEq H] {versions : Option (PathVersions H)}
    (exact : (closure.exactPaths versions).isSome) :
    ∃ now before previous, versions = some now ∧ closure.previousTable = some previous ∧
      closure.pathVersions = some (previous.stateId, before) ∧
      closure.exactPaths versions = some (changedVersions now before) := by
  unfold exactPaths at exact
  split at exact
  · rename_i now stateId before previous held found
    split at exact
    · rename_i same
      refine ⟨now, before, previous, rfl, found, same ▸ held, ?_⟩
      simp only [exactPaths, held, found, if_pos same]
    · exact nomatch exact
  · exact nomatch exact

variable [DecidableEq V]

private theorem answer_nothing
    (blank : (∀ run ∈ state.served, run.rows = []) ∧ state.servedAsync = ∅) :
    Answer ([] : List (Path × List (EntityDemand K))) [] [] state := by
  have rows : ∀ path, (state.held path).1 = [] := fun path => by
    unfold PerFile.held
    cases found : state.servedAt path with
    | none => rfl
    | some run => exact blank.1 run (of_mem_zip (Table.mem_of_lookup_collect found)).2
  have facts : ∀ path, (state.held path).2 = [] := fun path => by
    rw [PerFile.held, blank.2]
    rfl
  exact ⟨fun path => (rows path).symm, fun path => (facts path).symm, fun path _ => rows path⟩

variable [DecidableEq W] [DecidableEq X]

section

variable (compiler passes runs locations) (project : Project ω W F X)

/-- The runs of a table take away rows only where versions see it: without runs nothing is held, and
a path that leaves the runs does not keep its async facts. -/
def VersionsSee : Prop :=
  if runs = [] then
    (∀ run ∈ project.perFile.served, run.rows = []) ∧ project.perFile.servedAsync = ∅
  else project.perFile.FactsFollow passes (compiler.runPasses project.compiler runs locations).1
    (runs.map Prod.fst) locations

instance [DecidableEq F] : Decidable (VersionsSee compiler passes runs locations project) :=
  inferInstanceAs (Decidable (ite _ (_ ∧ _) (PerFile.FactsFollow _ _ _ _ _)))

end

variable {codec : Codec K C} {cells : EntityCells F} {groups : List (DemandGroup K C)}
  {project after : Project ω W F X}

private theorem Answers.moved {outcome : Except String _}
    (answers : Answers (Project.backend (H := H) compiler passes) cells runs locations project outcome
      after)
    (sound : project.perFile.Sound passes meaning) (ordered : (runs.map Prod.fst).Pairwise (· < ·))
    (see : VersionsSee compiler passes runs locations project) :
    ∃ extended, Moved passes meaning extended project.perFile after.perFile ∧
      ∀ entities facts, outcome = .ok (entities, facts) → after.perFile.versionsValid →
        Answer runs entities facts after.perFile := by
  have distinct : (runs.map Prod.fst).Nodup := ordered.imp fun below => ne_of_lt below
  unfold VersionsSee at see
  cases answers with
  | nothing none =>
    rw [if_pos none] at see
    refine ⟨meaning, .refl sound, fun entities facts returned _ => ?_⟩
    cases returned
    exact none ▸ answer_nothing see
  | failed some =>
    rw [if_neg some] at see
    obtain ⟨later, -, extended, extended_sound, older⟩ :=
      Project.perFileDemandRuns_sound sound distinct see
    exact ⟨extended, ⟨extended_sound, later, older⟩, nofun⟩
  | @rows results entities facts some answered rebuilt =>
    rw [if_neg some] at see
    obtain ⟨later, answers, extended, extended_sound, older⟩ :=
      Project.perFileDemandRuns_sound sound distinct see
    refine ⟨extended, ⟨extended_sound, later, older⟩, fun others more returned valid => ?_⟩
    cases returned
    obtain ⟨paths, rfl, held⟩ := answers results facts answered valid
    have rows (served : List (Served W F)) : served.map (fun run => RunAnswer.rows run.rows) =
        (served.map Served.rows).map RunAnswer.rows := map_map.symm
    rw [rows] at rebuilt
    obtain rfl := rebuildContributions_rows cells rebuilt
    exact answer_served extended_sound.toAligned paths ordered held

private theorem Polled.perFile
    (polled : Polled (Project.backend (H := H) (K := K) compiler passes) project after) :
    after.perFile = project.perFile := by
  induction polled with
  | refl => rfl
  | tail _ poll ih =>
    rw [poll]
    exact ih

theorem Reaches.moved
    (reaches : Reaches (Project.backend compiler passes) cells codec groups project after)
    (sound : project.perFile.Sound passes meaning)
    (ascend : (groups.map DemandGroup.path).Pairwise (· < ·))
    (see : ∀ runs locations, prepareRuns codec groups = .ok (runs, locations) →
      VersionsSee compiler passes runs locations
        (project.setCompiler (compiler.sourceDigests project.compiler).2)) :
    ∃ extended, Moved passes meaning extended project.perFile after.perFile := by
  induction reaches with
  | digests => exact ⟨meaning, .refl sound⟩
  | runs prepared answers =>
    obtain ⟨extended, moved, -⟩ := answers.moved sound (prepareRuns_paths prepared ▸ ascend)
      (see _ _ prepared)
    exact ⟨extended, moved⟩
  | polled _ polled ih =>
    rw [polled.perFile]
    exact ih

variable {after : DemandClosure (Project ω W F X) H F (AsyncFunctionFact X)}
  {table : ProducerTable H (EntityFact F) (AsyncFunctionFact X)} {generation : ℕ} [DecidableEq H]

variable (passes built closure after table) in
/-- The table is built, and a manifest from versions names what changed since its base. -/
structure Publishes : Prop where
  traced : ∃ meaning, ∀ versioned, Traced passes meaning (built ++ [⟨table, versioned⟩])
    { after with table := some table }
  covers : (closure.exactPaths (after.pathVersions.map Prod.snd)).isSome →
    ∀ manifest, table.transport = some manifest →
      ∃ base ∈ built, manifest.Names base.table ∧ manifest.Covers base.table table

section

variable {sources : List (Path × H)} {entities : List (Path × List (EntityFact F))}
  {facts : List (Path × AsyncFunctionFact X)}
  (paths : runs.map Prod.fst = groups.map DemandGroup.path)
  (answer : closure.backend.perFile.versionsValid →
    Answer runs entities facts closure.backend.perFile)
  (source_clean : ∀ source ∈ sources, source.1.clean = source.1)
  (ordered : sources.Pairwise fun left right => left.1 < right.1)
  (group_clean : ∀ group ∈ groups, group.path.clean = group.path)
include paths answer source_clean ordered group_clean

omit [DecidableEq H] in
private theorem describe_answer (sound : closure.backend.perFile.Sound passes meaning)
    {now : PathVersions H} (tracked : versionsNow (Project.backend compiler passes) closure.backend
      sources groups = some now) (generation stateId : ℕ) (transport : Option TransportChanges) :
    now.Describe meaning closure.backend.perFile.versions.next ⟨generation, stateId, sources,
      entities.filter fun run => run.2 ≠ [],
      sources.map fun source => (source.1, asyncFactsAt facts source.1), transport⟩ := by
  have answer := answer (valid_of_tracked tracked)
  refine versionsNow_describe sound ordered rfl answer.entities ?_ ?_ ?_ tracked
  · exact map_congr_left fun source _ => by rw [answer.facts]
  · exact fun path absent => answer.outside path (paths ▸ absent)
  · rintro path (⟨source, member, rfl⟩ | member)
    · exact source_clean source member
    · obtain ⟨group, inside, rfl⟩ := mem_map.mp member
      exact group_clean group inside

private theorem publish_publishes (traced : Traced passes meaning built closure)
    (published : publish (Project.backend compiler passes) groups generation sources entities
      (sources.map fun source => (source.1, asyncFactsAt facts source.1)) closure =
        (.ok table, after)) : Publishes passes built closure after table := by
  obtain ⟨made, rfl⟩ := Prod.mk.inj published
  cases made
  have describe := fun now (tracked : versionsNow (Project.backend compiler passes) closure.backend
    sources groups = some now) => describe_answer paths answer source_clean ordered
      group_clean traced.sound tracked generation (closure.nextTableStateId + 1)
  refine ⟨⟨meaning, fun versioned => ⟨traced.sound, fun one member => ?_, ?_, ?_, nofun,
    fun stateId before found => ?_⟩⟩, fun exact manifest carried => ?_⟩
  · rcases mem_append.mp member with earlier | last
    · exact (traced.numbered one earlier).trans (Nat.le_succ _)
    · obtain rfl := mem_singleton.mp last
      exact le_rfl
  · rw [map_append, nodup_append]
    refine ⟨traced.distinct, nodup_singleton _, fun stateId earlier other last => ?_⟩
    obtain ⟨one, member, rfl⟩ := mem_map.mp earlier
    obtain rfl := mem_singleton.mp last
    exact Nat.ne_of_lt (Nat.lt_succ_of_le (traced.numbered one member))
  · rintro table ⟨⟩
    exact ⟨_, mem_append_right _ (mem_singleton_self _), rfl, rfl⟩
  · obtain ⟨now, tracked, same⟩ := Option.map_eq_some_iff.mp found
    obtain ⟨rfl, rfl⟩ := Prod.mk.inj same
    exact ⟨_, mem_append_right _ (mem_singleton_self _), rfl, describe now tracked _⟩
  · have versions : ((versionsNow (Project.backend compiler passes) closure.backend sources
        groups).map fun now => (closure.nextTableStateId + 1, now)).map Prod.snd =
        versionsNow (Project.backend compiler passes) closure.backend sources groups := by
      rw [Option.map_map]
      exact Option.map_id'
    replace exact : (closure.exactPaths (versionsNow (Project.backend compiler passes)
      closure.backend sources groups)).isSome := versions ▸ exact
    obtain ⟨now, before, previous, tracked, found, held, changed⟩ := exactPaths_cases exact
    rw [changed, found] at carried
    cases carried
    obtain ⟨base, base_built, base_id, base_described⟩ := traced.described _ before held
    obtain ⟨named, named_built, named_id, named_generation⟩ := traced.previous previous found
    obtain rfl := inj_on_of_nodup_map traced.distinct base_built named_built
      (base_id.trans named_id.symm)
    refine ⟨base, base_built, ⟨base_id, named_generation⟩, fun path differ => ?_⟩
    obtain ⟨clean, member⟩ := mem_changedVersions (describe now tracked _) base_described differ
    have inside : path ∈ (changedVersions now before).image .clean :=
      Finset.mem_image.mpr ⟨path, member, clean⟩
    exact ⟨inside, inside, inside⟩

end

theorem Builds.publishes
    (builds : Builds (Project.backend compiler passes) cells codec groups generation closure
      (.ok table) after) (traced : Traced passes meaning built closure)
    (ascend : (groups.map DemandGroup.path).Pairwise (· < ·))
    (group_clean : ∀ group ∈ groups, group.path.clean = group.path)
    (see : ∀ runs locations, prepareRuns codec groups = .ok (runs, locations) →
      VersionsSee compiler passes runs locations
        (closure.backend.setCompiler (compiler.sourceDigests closure.backend.compiler).2)) :
    Publishes passes built closure after table := by
  cases builds with
  | published given checked prepared answers polled published =>
    have paths := prepareRuns_paths prepared
    obtain ⟨extended, moved, answer⟩ := answers.moved traced.sound (paths ▸ ascend)
      (see _ _ prepared)
    rw [← polled.perFile] at moved answer
    obtain ⟨source_clean, ordered⟩ := checkDigests_ok checked
    obtain ⟨extended_traced, covers⟩ := publish_publishes paths
      (fun valid => answer _ _ rfl valid) (fun source member => (source_clean source member).1) ordered
      group_clean (traced.moved moved) published
    exact ⟨extended_traced, covers⟩

end

end DemandClosure

end SolidChecker.Producer
