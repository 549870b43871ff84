/- source: solid-facts-backend/src/lib.rs, cache.rs -/

import SolidChecker.Backend.Facts

namespace SolidChecker.Backend

open List

open Foundation (Act)
open Foundation.Act (Meets)
open Foundation.Grouping (sortByKey sortByKey_perm mapM_ok_iff)
open Producer (Path)

variable {S O A C R F ε : Type}

section

private theorem key_split {front back other last : Key} (plain : nul ∉ back) (bare : nul ∉ last)
    (same : front ++ nul :: back = other ++ nul :: last) : front = other ∧ back = last := by
  rcases append_eq_append_iff.mp same with ⟨between, rfl, tail⟩ | ⟨between, rfl, tail⟩
  · cases between with
    | nil => exact ⟨(append_nil _).symm, (List.cons.inj tail).2⟩
    | cons char between =>
      refine absurd ?_ plain
      rw [(List.cons.inj tail).2]
      exact mem_append_right _ mem_cons_self
  · cases between with
    | nil => exact ⟨append_nil _, (List.cons.inj tail).2.symm⟩
    | cons char between =>
      refine absurd ?_ bare
      rw [(List.cons.inj tail).2]
      exact mem_append_right _ mem_cons_self

namespace Tools

variable (tools : Tools S O A C R F ε) {file other : SourceFile S O}

private theorem astCacheKey_inj (same : tools.astCacheKey file = tools.astCacheKey other) :
    file.path = other.path ∧ file.source = other.source := by
  obtain ⟨path, digest⟩ := key_split (tools.hash_plain _) (tools.hash_plain _) same
  exact ⟨path, tools.hash_injective digest⟩

private theorem compilerCacheKey_inj (same : tools.compilerCacheKey file = tools.compilerCacheKey other) :
    tools.request file = tools.request other := by
  obtain ⟨front, options⟩ := key_split (tools.json_plain _) (tools.json_plain _) same
  obtain ⟨path, source⟩ := tools.astCacheKey_inj (append_cancel_right (append_cancel_right front))
  rw [request, request, path, source, tools.json_injective options]

private theorem demandKey_inj {options other : Bool} {file facts : FileFacts S A C}
    (plain : nul ∉ file.sourceHash) (bare : nul ∉ facts.sourceHash)
    (same : tools.demandKey options file = tools.demandKey other facts) :
    options = other ∧ file.path = facts.path ∧ file.sourceHash = facts.sourceHash := by
  obtain ⟨front, digest⟩ := key_split plain bare same
  rw [append_assoc, append_assoc] at front
  have rest := append_cancel_left front
  cases options <;> cases other
  · exact ⟨rfl, (List.cons.inj (append_cancel_left rest)).2, digest⟩
  · exact absurd rest (by simp [toString])
  · exact absurd rest (by simp [toString])
  · exact ⟨rfl, (List.cons.inj (append_cancel_left rest)).2, digest⟩

end Tools

end

section

variable (tools : Tools S O A C R F ε)

def digestOf (programHashes : Finmap fun _ : Path => Key) (file : SourceFile S O) : Key :=
  (programHashes.lookup file.path).getD (tools.hash file.source)

structure Derived (digest : Key) (file : SourceFile S O) (facts : FileFacts S A C) : Prop where
  ast : tools.extract file.path file.source = .ok facts.ast
  compiler : tools.execute file = .ok facts.compiler
  coherent : facts.ast.hash = facts.compiler.sourceHash
  path : facts.path = facts.ast.path
  source : facts.source = file.source
  hash : facts.sourceHash = digest

variable {tools} {digest : Key} {file other : SourceFile S O} {facts later : FileFacts S A C}
  {ast : AstFacts A}

private theorem extract_fields {path : Path} {source : S} (made : tools.extract path source = .ok ast) :
    ast.path = tools.normalizePath path ∧ ast.hash = tools.hash source := by
  unfold Tools.extract at made
  split at made
  · exact nomatch made
  · split at made
    · exact nomatch made
    · cases made
      exact ⟨rfl, rfl⟩

private theorem request_inj (same : tools.request file = tools.request other) :
    file.path = other.path ∧ file.source = other.source := by
  simp only [Tools.request, AnalysisRequest.mk.injEq] at same
  exact ⟨same.1, same.2.1⟩

section

variable (derived : Derived tools digest file facts)
include derived

theorem Derived.path_eq (normal : tools.normalizePath file.path = file.path) : facts.path = file.path :=
  derived.path.trans ((extract_fields derived.ast).1.trans normal)

private theorem Derived.unique (again : Derived tools digest other later) (same : tools.request file = tools.request other) :
    later = { facts with generation := later.generation } := by
  obtain ⟨path, source⟩ := request_inj same
  have ast : later.ast = facts.ast := by
    have parsed := again.ast
    rw [← path, ← source, derived.ast] at parsed
    exact (Except.ok.inj parsed).symm
  have compiler : later.compiler = facts.compiler := by
    have compiled := again.compiler
    rw [Tools.execute, ← same] at compiled
    exact (Except.ok.inj (derived.compiler.symm.trans compiled)).symm
  cases later
  cases facts
  obtain ⟨-, -, -, path', source', hash'⟩ := again
  obtain ⟨-, -, -, path'', source'', hash''⟩ := derived
  simp only at *
  subst path' path'' source' source'' hash' hash'' ast compiler
  rw [source]

private theorem Derived.restamp (generation : ℕ) :
    Derived tools digest file { facts with generation, source := file.source } :=
  ⟨derived.ast, derived.compiler, derived.coherent, derived.path, rfl, derived.hash⟩

end

variable {generation : ℕ} {programHashes : Finmap fun _ : Path => Key}
    {sources : List (SourceFile S O)}

private theorem assembleFile_ok_iff {execution : ExecutionMap C}
    (parsed : tools.extract file.path file.source = .ok ast)
    (compiled : tools.execute file = .ok execution) :
    assembleFile (ε := ε) generation programHashes file ast execution = .ok facts ↔
      Derived tools (digestOf tools programHashes file) file facts ∧
        facts.generation = generation := by
  by_cases coherent : ast.hash = execution.sourceHash
  · have made : assembleFile (ε := ε) generation programHashes file ast execution =
        .ok ⟨generation, ast.path, digestOf tools programHashes file, file.source, ast, execution⟩ := by
      rw [assembleFile, FileFacts.new, if_neg (not_not.mpr coherent), digestOf,
        ← (extract_fields parsed).2]
      cases programHashes.lookup file.path <;> rfl
    rw [made]
    constructor
    · intro same
      cases same
      exact ⟨⟨parsed, compiled, coherent, rfl, rfl, rfl⟩, rfl⟩
    · rintro ⟨derived, rfl⟩
      cases parsed.symm.trans derived.ast
      cases compiled.symm.trans derived.compiler
      rw [← derived.path, ← derived.source, ← derived.hash]
  · rw [assembleFile, FileFacts.new, if_pos coherent]
    refine iff_of_false nofun fun ⟨derived, _⟩ => coherent ?_
    cases parsed.symm.trans derived.ast
    cases compiled.symm.trans derived.compiler
    exact derived.coherent

def Facts (tools : Tools S O A C R F ε) (programHashes : Finmap fun _ : Path => Key) (generation : ℕ)
    (sources : List (SourceFile S O)) (files : List (FileFacts S A C)) : Prop :=
  List.Forall₂ (fun file facts => Derived tools (digestOf tools programHashes file) file facts ∧
    facts.generation = generation) sources files

variable {files : List (FileFacts S A C)}

theorem Facts.exists_source
    (all : Facts tools programHashes generation sources files) (facts : FileFacts S A C)
    (member : facts ∈ files) : ∃ file ∈ sources,
      Derived tools (digestOf tools programHashes file) file facts := by
  induction all with
  | nil => cases member
  | @cons file first sources files here _ ih =>
    rcases mem_cons.mp member with rfl | later
    · exact ⟨file, mem_cons_self, here.1⟩
    · obtain ⟨source, inside, derived⟩ := ih later
      exact ⟨source, mem_cons_of_mem _ inside, derived⟩

theorem assembleFiles_ok_iff : (∃ asts executions,
      (sources.mapM fun file => tools.extract file.path file.source) = .ok asts ∧
      sources.mapM tools.execute = .ok executions ∧
      assembleFiles (ε := ε) generation programHashes sources asts executions = .ok files) ↔
      Facts tools programHashes generation sources files := by
  simp only [mapM_ok_iff]
  induction sources generalizing files with
  | nil =>
    constructor
    · rintro ⟨asts, executions, parsed, -, made⟩
      obtain rfl := forall₂_nil_left_iff.mp parsed
      exact Except.ok.inj made ▸ .nil
    · intro all
      obtain rfl := forall₂_nil_left_iff.mp all
      exact ⟨[], [], .nil, .nil, rfl⟩
  | cons file sources ih =>
    constructor
    · rintro ⟨asts, executions, parsed, compiled, made⟩
      obtain ⟨ast, asts, here, parsedRest, rfl⟩ := forall₂_cons_left_iff.mp parsed
      obtain ⟨execution, executions, there, compiledRest, rfl⟩ :=
        forall₂_cons_left_iff.mp compiled
      rw [assembleFiles] at made
      cases first : assembleFile (ε := ε) generation programHashes file ast execution with
      | error error => rw [first] at made; exact nomatch made
      | ok facts =>
        cases rest : assembleFiles (ε := ε) generation programHashes sources asts executions with
        | error error => rw [first, rest] at made; exact nomatch made
        | ok later =>
          rw [first, rest] at made
          cases made
          exact .cons ((assembleFile_ok_iff here there).mp first)
            (ih.mp ⟨asts, executions, parsedRest, compiledRest, rest⟩)
    · intro all
      obtain ⟨facts, later, first, rest, rfl⟩ := forall₂_cons_left_iff.mp all
      obtain ⟨asts, executions, parsed, compiled, made⟩ := ih.mpr rest
      refine ⟨facts.ast :: asts, facts.compiler :: executions, .cons first.1.ast parsed,
        .cons first.1.compiler compiled, ?_⟩
      rw [assembleFiles, (assembleFile_ok_iff first.1.ast first.1.compiler).mpr first, made]
      rfl

def Current (tools : Tools S O A C R F ε) (programHashes : Finmap fun _ : Path => Key)
    (sources : List (SourceFile S O)) (retained : Option (Retained S A C)) : Prop :=
  ∀ file ∈ sources, ∀ previous, Retained.file retained file.path = some previous →
    Derived tools (digestOf tools programHashes file) file previous

theorem mergeFiles_facts {retained : Option (Retained S A C)} {made : List (FileFacts S A C)}
    (current : Current tools programHashes sources retained)
    (fresh : Facts tools programHashes generation (pendingOf retained sources) made) :
    Facts tools programHashes generation sources (mergeFiles generation retained sources made) := by
  induction sources generalizing made with
  | nil => exact .nil
  | cons file sources ih =>
    have later : Current tools programHashes sources retained := fun other member =>
      current other (mem_cons_of_mem _ member)
    cases found : Retained.file retained file.path with
    | some previous =>
      rw [pendingOf, filter_cons_of_neg (by simp [found])] at fresh
      simp only [mergeFiles, found]
      exact .cons ⟨(current file mem_cons_self previous found).restamp _, rfl⟩ (ih later fresh)
    | none =>
      rw [pendingOf, filter_cons_of_pos (by simp [found])] at fresh
      obtain ⟨facts, rest, first, tail, rfl⟩ := forall₂_cons_left_iff.mp fresh
      simp only [mergeFiles, found]
      exact .cons first (ih later tail)

end

/-- The sources a session is given, under the digests the program has for them: paths are in normal
form, digests plain, and one digest at one path is one request. -/
structure Offers (tools : Tools S O A C R F ε) where
  offered : Path → Key → SourceFile S O → Prop
  path_eq : ∀ {path digest file}, offered path digest file → file.path = path
  normal : ∀ {path digest file}, offered path digest file → tools.normalizePath path = path
  plain : ∀ {path digest file}, offered path digest file → nul ∉ digest
  agree : ∀ {path digest file other}, offered path digest file → offered path digest other →
    tools.request file = tools.request other

section

variable {tools : Tools S O A C R F ε} (offers : Offers tools)

def Offers.Made (facts : FileFacts S A C) : Prop :=
  ∃ path digest file, offers.offered path digest file ∧ Derived tools digest file facts

structure SoundCache (cache : FactsCache A C R F) : Prop where
  ast : ∀ file ast, cache.ast (tools.astCacheKey file) = some ast →
    tools.extract file.path file.source = .ok ast
  compiler : ∀ file execution, cache.compiler (tools.compilerCacheKey file) = some execution →
    tools.execute file = .ok execution
  demands : ∀ options facts run, offers.Made facts →
    cache.semanticDemands (tools.demandKey options facts) = some run →
    tools.plan facts options = .ok run

theorem soundCache_empty : SoundCache offers FactsCache.empty :=
  ⟨nofun, nofun, nofun⟩

variable {V : Type} {kept : Key → Option V} {key : Key} {cache : FactsCache A C R F} {files : List (FileFacts S A C)}

private theorem forget_some {path : Path} {value : V}
    (found : FactsCache.forget path kept key = some value) : kept key = some value :=
  (Option.ite_none_left_eq_some.mp found).2

variable {offers}

private theorem cachedOr_eq {make : Except (BackendError ε) V}
    (sound : ∀ value, kept key = some value → make = .ok value) :
    cachedOr kept key make = make := by
  unfold cachedOr
  split
  · next value found => exact (sound value found).symm
  · rfl

private theorem keepMissed_some {made : List (Key × V)} {value : V}
    (found : keepMissed kept made key = some value) :
    kept key = some value ∨ (key, value) ∈ made := by
  induction made generalizing kept with
  | nil => exact .inl found
  | cons pair made ih =>
    rcases ih found with known | member
    · dsimp only at known
      split at known
      · exact .inl known
      · rw [Function.update_apply] at known
        split at known
        · next same =>
            cases known
            exact .inr (same ▸ mem_cons_self)
        · exact .inl known
    · exact .inr (mem_cons_of_mem _ member)

private theorem keepMissed_sound {X : Type} {key : X → Key} {make : X → Except (BackendError ε) V}
    (sound : ∀ item value, kept (key item) = some value → make item = .ok value)
    (determined : ∀ item other, key item = key other → make item = make other)
    {items : List X} {values : List V} (made : items.mapM make = .ok values) (item : X) (value : V)
    (found : keepMissed kept ((items.map key).zip values) (key item) = some value) :
    make item = .ok value := by
  rcases keepMissed_some found with known | member
  · exact sound item value known
  · rw [mapM_ok_iff] at made
    have paired : List.Forall₂ (fun itsKey value => ∀ item, key item = itsKey →
        make item = .ok value) (items.map key) values := by
      rw [forall₂_map_left_iff]
      exact made.imp fun other value here item same => (determined item other same).trans here
    exact (forall₂_iff_zip.mp paired).2 member item rfl

private theorem execute_congr {file other : SourceFile S O}
    (same : tools.request file = tools.request other) : tools.execute file = tools.execute other := by
  rw [Tools.execute, Tools.execute, same]

variable {facts : FileFacts S A C}

private theorem Offers.path_of {path : Path} {digest : Key} {file : SourceFile S O}
    (offered : offers.offered path digest file)
    (derived : Derived tools digest file facts) : facts.path = path := by
  have normal := offers.normal offered
  rw [← offers.path_eq offered] at normal ⊢
  exact derived.path_eq normal

private theorem Offers.Made.plan_eq {options other : Bool} {facts later : FileFacts S A C}
    (made : offers.Made facts) (again : offers.Made later)
    (same : tools.demandKey options facts = tools.demandKey other later) :
    tools.plan facts options = tools.plan later other := by
  obtain ⟨path, digest, file, offered, derived⟩ := made
  obtain ⟨path', digest', file', offered', derived'⟩ := again
  have plain := derived.hash ▸ offers.plain offered
  have plain' := derived'.hash ▸ offers.plain offered'
  obtain ⟨rfl, samePath, sameDigest⟩ := tools.demandKey_inj plain plain' same
  have at_path : path' = path := by
    rw [← offers.path_of offered derived, ← offers.path_of offered' derived', samePath]
  have at_digest : digest' = digest := by rw [← derived.hash, ← derived'.hash, sameDigest]
  subst at_path at_digest
  have again := derived.unique derived' (offers.agree offered offered')
  exact ((congrArg (fun facts => tools.plan facts options) again).trans
    (tools.plan_generation facts later.generation options)).symm

def planFile (tools : Tools S O A C R F ε) (options : Bool) (facts : FileFacts S A C) :
    Except (BackendError ε) (Path × R) :=
  match tools.plan facts options with
  | .error error => .error (.other error)
  | .ok run => .ok (facts.path, run)

def keepRun (key : Key) (run : R) (cache : FactsCache A C R F) : FactsCache A C R F :=
  { cache with semanticDemands := Function.update cache.semanticDemands key (some run) }

private theorem keepRun_apply (key other : Key) (run : R) (cache : FactsCache A C R F) :
    (keepRun key run cache).semanticDemands other =
      if other = key then some run else cache.semanticDemands other :=
  Function.update_apply _ _ _ _

private theorem demandRuns_cons (options : Bool) (facts : FileFacts S A C) (files : List (FileFacts S A C))
    (cache : FactsCache A C R F) :
    demandRuns tools options (facts :: files) cache =
      if (cache.semanticDemands (tools.demandKey options facts)).isSome then
        demandRuns tools options files cache
      else match tools.plan facts options with
        | .error error => (.error (.other error), cache)
        | .ok run => demandRuns tools options files
            (keepRun (tools.demandKey options facts) run cache) := by
  rw [demandRuns]
  refine (Act.bind_of_ok rfl _).trans ?_
  split
  · rfl
  · cases tools.plan facts options <;> rfl

section

variable (sound : SoundCache offers cache) (sources : List (SourceFile S O))
include sound

theorem SoundCache.invalidatePath (path : Path) : SoundCache offers (cache.invalidatePath path) :=
  ⟨fun file ast found => sound.ast file ast (forget_some found),
    fun file execution found => sound.compiler file execution (forget_some found),
    fun options facts run made found => sound.demands options facts run made (forget_some found)⟩

theorem prepareAst_eq : (prepareAst tools sources cache).1 =
        (sources.mapM fun file => tools.extract file.path file.source) ∧
      SoundCache offers (prepareAst tools sources cache).2 := by
  have looked : (fun file => cachedOr cache.ast (tools.astCacheKey file)
      (tools.extract file.path file.source)) = fun file => tools.extract file.path file.source :=
    funext fun file => cachedOr_eq fun ast found => sound.ast file ast found
  unfold prepareAst
  rw [looked]
  cases made : sources.mapM fun file => tools.extract file.path file.source with
  | error error => exact ⟨rfl, sound⟩
  | ok asts =>
    refine ⟨rfl, ⟨fun file ast found => ?_, sound.compiler, sound.demands⟩⟩
    refine keepMissed_sound sound.ast (fun item other same => ?_) made file ast found
    obtain ⟨path, source⟩ := tools.astCacheKey_inj same
    rw [path, source]

theorem prepareCompiler_eq : (prepareCompiler tools sources cache).1 = sources.mapM tools.execute ∧
      SoundCache offers (prepareCompiler tools sources cache).2 := by
  have looked : (fun file => cachedOr cache.compiler (tools.compilerCacheKey file)
      (tools.execute file)) = tools.execute :=
    funext fun file => cachedOr_eq fun execution found => sound.compiler file execution found
  unfold prepareCompiler
  rw [looked]
  cases made : sources.mapM tools.execute with
  | error error => exact ⟨rfl, sound⟩
  | ok executions =>
    refine ⟨rfl, ⟨sound.ast, fun file execution found => ?_, sound.demands⟩⟩
    exact keepMissed_sound sound.compiler
      (fun item other same => execute_congr (tools.compilerCacheKey_inj same)) made file execution found

private theorem SoundCache.keepRun {options : Bool} (made : offers.Made facts) {run : R}
    (planned : tools.plan facts options = .ok run) :
    SoundCache offers (keepRun (tools.demandKey options facts) run cache) := by
  refine ⟨sound.ast, sound.compiler, fun other later kept again found => ?_⟩
  rw [keepRun_apply] at found
  split at found
  · next same => rw [again.plan_eq made same, planned, Option.some.inj found]
  · exact sound.demands other later kept again found

variable (made : ∀ facts ∈ files, offers.Made facts)
include made

private theorem demandRuns_eq (options : Bool) :
    SoundCache offers (demandRuns tools options files cache).2 ∧
      (∀ key, (cache.semanticDemands key).isSome →
        ((demandRuns tools options files cache).2.semanticDemands key).isSome) ∧
      (demandRuns tools options files cache).1 =
        (files.mapM (planFile tools options)).map (fun _ => ⟨⟩) ∧
      ((demandRuns tools options files cache).1 = .ok ⟨⟩ → ∀ facts ∈ files,
        ((demandRuns tools options files cache).2.semanticDemands
          (tools.demandKey options facts)).isSome) := by
  induction files generalizing cache with
  | nil => exact ⟨sound, fun _ known => known, rfl, fun _ => nofun⟩
  | cons facts files ih =>
    obtain ⟨here, later⟩ := forall_mem_cons.mp made
    rw [mapM_cons, demandRuns_cons]
    cases known : cache.semanticDemands (tools.demandKey options facts) with
    | some run =>
      obtain ⟨still, kept, failed, present⟩ := ih sound later
      have planned : planFile tools options facts = .ok (facts.path, run) := by
        rw [planFile, sound.demands options facts run here known]
      rw [Option.isSome_some, if_pos rfl, planned]
      refine ⟨still, kept, failed.trans ?_, fun done => forall_mem_cons.mpr
        ⟨kept _ (by rw [known]; rfl), present done⟩⟩
      cases files.mapM (planFile tools options) <;> rfl
    | none =>
      rw [Option.isSome_none, if_neg Bool.false_ne_true]
      cases planned : tools.plan facts options with
      | error error =>
        refine ⟨sound, fun _ known => known, ?_, nofun⟩
        rw [planFile, planned]
        rfl
      | ok run =>
        obtain ⟨still, kept, failed, present⟩ := ih (sound.keepRun here planned) later
        refine ⟨still, fun key isKnown => kept key ?_, failed.trans ?_, fun done =>
          forall_mem_cons.mpr ⟨kept _ ?_, present done⟩⟩
        · rw [keepRun_apply]
          split
          · rfl
          · exact isKnown
        · rw [planFile, planned]
          cases files.mapM (planFile tools options) <;> rfl
        · rw [keepRun_apply, if_pos rfl]
          rfl

private theorem keptRuns_eq {options : Bool} {runs : List (Path × R)} (present : ∀ facts ∈ files,
      (cache.semanticDemands (tools.demandKey options facts)).isSome)
    (planned : files.mapM (planFile tools options) = .ok runs) :
    (files.filterMap fun facts => (cache.semanticDemands (tools.demandKey options facts)).map
      fun run => (facts.path, run)) = runs := by
  rw [mapM_ok_iff] at planned
  induction planned with
  | nil => rfl
  | @cons facts pair files runs here _ ih =>
    obtain ⟨known, rest⟩ := forall_mem_cons.mp present
    obtain ⟨run, found⟩ := Option.isSome_iff_exists.mp known
    rw [planFile, sound.demands options facts run (made facts mem_cons_self) found] at here
    cases here
    rw [filterMap_cons_some (b := (facts.path, run)) (by rw [found]; rfl),
      ih (fun other member => made other (mem_cons_of_mem _ member)) rest]

theorem semanticDemandGroups_eq (options : Bool) :
    (semanticDemandGroups tools files options cache).1 =
        (sortByKey FileFacts.path files).mapM (planFile tools options) ∧
      SoundCache offers (semanticDemandGroups tools files options cache).2 := by
  have ordered : ∀ facts ∈ sortByKey FileFacts.path files, offers.Made facts := fun facts member =>
    made facts ((sortByKey_perm FileFacts.path files).mem_iff.mp member)
  obtain ⟨still, -, failed, present⟩ := demandRuns_eq sound ordered options
  unfold semanticDemandGroups
  generalize sortByKey FileFacts.path files = sorted at ordered still failed present ⊢
  cases outcome : demandRuns tools options sorted cache with
  | mk result after =>
    rw [outcome] at still failed present
    cases planned : sorted.mapM (planFile tools options) with
    | error error =>
      rw [planned] at failed
      obtain rfl : result = .error error := failed
      rw [Act.bind_of_error outcome]
      exact ⟨rfl, still⟩
    | ok runs =>
      rw [planned] at failed
      obtain rfl : result = .ok ⟨⟩ := failed
      rw [Act.bind_of_ok outcome]
      exact ⟨congrArg Except.ok (keptRuns_eq still ordered (present rfl) planned), still⟩

end

end

/-- Files and demand runs as a build with empty caches and nothing retained gives them. -/
def freshBuild (tools : Tools S O A C R F ε) (generation : ℕ)
    (programHashes : Finmap fun _ : Path => Key) (options : Bool) (sources : List (SourceFile S O)) :
    Except (BackendError ε) (List (FileFacts S A C) × List (Path × R)) :=
  ((do
    let pending := pendingOf (none : Option (Retained S A C)) sources
    let asts ← prepareAst tools pending
    let executions ← prepareCompiler tools pending
    let made ← Act.ofExcept (assembleFiles generation programHashes pending asts executions)
    let files := mergeFiles generation none sources made
    let groups ← semanticDemandGroups tools files options
    pure (files, groups) : Stage A C R F ε _) FactsCache.empty).1

section

variable {tools : Tools S O A C R F ε} {offers : Offers tools} {sources : List (SourceFile S O)}

private theorem mergeFiles_none {generation : ℕ}
    {made : List (FileFacts S A C)} (same : sources.length = made.length) :
    mergeFiles generation none sources made = made := by
  induction sources generalizing made with
  | nil => exact (length_eq_zero_iff.mp same.symm).symm
  | cons file sources ih =>
    cases made with
    | nil => exact nomatch same
    | cons facts made => exact congrArg (facts :: ·) (ih (Nat.succ.inj same))

theorem freshBuild_eq {programHashes : Finmap fun _ : Path => Key} {generation : ℕ}
    {options : Bool} {files : List (FileFacts S A C)} {groups : List (Path × R)}
    (facts : Facts tools programHashes generation sources files)
    (made : ∀ file ∈ files, offers.Made file)
    (planned : (sortByKey FileFacts.path files).mapM (planFile tools options) = .ok groups) :
    freshBuild tools generation programHashes options sources = .ok (files, groups) := by
  obtain ⟨asts, executions, parsed, compiled, assembled⟩ := assembleFiles_ok_iff.mpr facts
  have pending : pendingOf (none : Option (Retained S A C)) sources = sources :=
    filter_eq_self.mpr fun _ _ => rfl
  obtain ⟨first, sound⟩ := prepareAst_eq (soundCache_empty offers) sources
  obtain ⟨second, still⟩ := prepareCompiler_eq sound sources
  obtain ⟨third, -⟩ := semanticDemandGroups_eq still made options
  have joined : ∀ cache,
      (.ofExcept (assembleFiles generation programHashes sources asts executions) :
        Stage A C R F ε _) cache = (.ok files, cache) := fun _ => Prod.ext assembled rfl
  unfold freshBuild
  dsimp only
  rw [pending, Act.bind_of_ok (Prod.ext (first.trans parsed) rfl),
    Act.bind_of_ok (Prod.ext (second.trans compiled) rfl), Act.bind_of_ok (joined _),
    mergeFiles_none facts.length_eq, Act.bind_of_ok (Prod.ext (third.trans planned) rfl)]
  rfl

end

end SolidChecker.Backend
