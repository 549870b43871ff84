/- source: solid-facts-backend/src/lib.rs, cache.rs; solid-facts/src/project.rs -/

import SolidChecker.Foundation.Act
import SolidChecker.Foundation.Grouping
import SolidChecker.Foundation.Table
import SolidChecker.Producer.Path

namespace SolidChecker.Backend

open Foundation (Act)
open Foundation.Grouping (sortByKey)
open Producer (Path)

abbrev Key := List Char

def nul : Char := Char.ofNat 0

inductive BackendError (ε : Type)
  | generation
  | cancelled
  | process (message : String)
  | invalidPath (path : Path)
  | compilerSourceHash
  | projectIdentity
  | tableGeneration
  | missingTypeScriptSource (path : Path)
  | typeScriptSourceHash (path : Path)
  /-- The parser's, the compiler's, the planner's or the session's own. -/
  | other (error : ε)

structure SourceFile (S O : Type) where
  path : Path
  source : S
  compilerOptions : O

structure AstFacts (A : Type) where
  path : Path
  hash : Key
  facts : A

structure ExecutionMap (C : Type) where
  sourceHash : Key
  facts : C

structure AnalysisRequest (S O : Type) where
  path : Path
  source : S
  sourceHash : Key
  compilerOptions : O

structure FileFacts (S A C : Type) where
  generation : ℕ
  path : Path
  sourceHash : Key
  source : S
  ast : AstFacts A
  compiler : ExecutionMap C

/-- The functions facts are made with. No two sources have one digest, and no two options one
JSON text; neither text has a separator in it. -/
structure Tools (S O A C R F ε : Type) where
  hash : S → Key
  /-- Nothing is left of the path when it is trimmed. -/
  blank : Path → Bool
  normalizePath : Path → Path
  parse : Path → S → Except ε A
  /-- Built-ins sorted and told once. -/
  canonical : O → O
  json : O → Key
  compile : AnalysisRequest S O → Except ε (ExecutionMap C)
  dialect : Key
  /-- The compiler facts' identity and protocol. -/
  identity : Key
  plan : FileFacts S A C → Bool → Except ε R
  structuralFunctions : FileFacts S A C → F
  hash_injective : Function.Injective hash
  hash_plain : ∀ source, nul ∉ hash source
  json_injective : Function.Injective json
  json_plain : ∀ options, nul ∉ json options
  /-- The planner does not look at the generation. -/
  plan_generation : ∀ file generation options, plan { file with generation } options = plan file options

structure TypeScriptTable (F B : Type) where
  projectId : Key
  generation : ℕ
  sources : List (Path × Key)
  files : List (Path × F)
  rows : B

structure FactsCache (A C R F : Type) where
  ast : Key → Option (AstFacts A)
  compiler : Key → Option (ExecutionMap C)
  semanticDemands : Key → Option R
  structuralFunctions : Key → Option F

variable {S O A C R F B ε : Type}

namespace FactsCache

def empty : FactsCache A C R F := ⟨fun _ => none, fun _ => none, fun _ => none, fun _ => none⟩

def forget {V : Type} (path : Path) (kept : Key → Option V) : Key → Option V := fun key =>
  if (path ++ [nul]).isPrefixOf key then none else kept key

def invalidatePath (path : Path) (cache : FactsCache A C R F) : FactsCache A C R F :=
  ⟨forget path cache.ast, forget path cache.compiler, forget path cache.semanticDemands,
    forget path cache.structuralFunctions⟩

end FactsCache

namespace Tools

variable (tools : Tools S O A C R F ε)

def extract (path : Path) (source : S) : Except (BackendError ε) (AstFacts A) :=
  if tools.blank path || path.contains nul then .error (.invalidPath path)
  else match tools.parse path source with
    | .error error => .error (.other error)
    | .ok facts => .ok ⟨tools.normalizePath path, tools.hash source, facts⟩

def request (file : SourceFile S O) : AnalysisRequest S O :=
  ⟨file.path, file.source, tools.hash file.source, tools.canonical file.compilerOptions⟩

def execute (file : SourceFile S O) : Except (BackendError ε) (ExecutionMap C) :=
  (tools.compile (tools.request file)).mapError .other

def astCacheKey (file : SourceFile S O) : Key := file.path ++ nul :: tools.hash file.source

def compilerCacheKey (file : SourceFile S O) : Key :=
  file.path ++ nul :: tools.hash file.source ++ nul :: tools.dialect ++ nul :: tools.identity ++
    nul :: tools.json (tools.canonical file.compilerOptions)

def demandKey (options : Bool) (file : FileFacts S A C) : Key :=
  tools.dialect ++ nul :: (toString options).toList ++ nul :: file.path ++ nul :: file.sourceHash

end Tools

namespace FileFacts

def functionsKey (file : FileFacts S A C) : Key := file.path ++ nul :: file.sourceHash

def new (generation : ℕ) (source : S) (ast : AstFacts A) (compiler : ExecutionMap C) :
    Except (BackendError ε) (FileFacts S A C) :=
  if ast.hash ≠ compiler.sourceHash then .error .compilerSourceHash
  else .ok ⟨generation, ast.path, ast.hash, source, ast, compiler⟩

end FileFacts

def cachedOr {V : Type} (kept : Key → Option V) (key : Key)
    (make : Except (BackendError ε) V) : Except (BackendError ε) V :=
  match kept key with
  | some value => .ok value
  | none => make

def keepMissed {V : Type} (kept : Key → Option V) (made : List (Key × V)) : Key → Option V :=
  made.foldl (fun kept pair => if (kept pair.1).isSome then kept
    else Function.update kept pair.1 (some pair.2)) kept

section

variable (tools : Tools S O A C R F ε)

abbrev Stage (A C R F ε α : Type) := Act (FactsCache A C R F) (BackendError ε) α

def prepareAst (sources : List (SourceFile S O)) : Stage A C R F ε (List (AstFacts A)) :=
  fun cache =>
    match sources.mapM fun file => cachedOr cache.ast (tools.astCacheKey file)
        (tools.extract file.path file.source) with
    | .error error => (.error error, cache)
    | .ok asts => (.ok asts, { cache with
        ast := keepMissed cache.ast ((sources.map tools.astCacheKey).zip asts) })

def prepareCompiler (sources : List (SourceFile S O)) : Stage A C R F ε (List (ExecutionMap C)) :=
  fun cache =>
    match sources.mapM fun file => cachedOr cache.compiler (tools.compilerCacheKey file)
        (tools.execute file) with
    | .error error => (.error error, cache)
    | .ok executions => (.ok executions, { cache with
        compiler := keepMissed cache.compiler
          ((sources.map tools.compilerCacheKey).zip executions) })

def assembleFile (generation : ℕ) (programHashes : Finmap fun _ : Path => Key)
    (file : SourceFile S O) (ast : AstFacts A) (execution : ExecutionMap C) :
    Except (BackendError ε) (FileFacts S A C) := do
  let facts ← FileFacts.new generation file.source ast execution
  match programHashes.lookup file.path with
  | some hash => pure { facts with sourceHash := hash }
  | none => pure facts

structure Retained (S A C : Type) where
  files : List (FileFacts S A C)
  changedPaths : List Path

def Retained.file (retained : Option (Retained S A C)) (path : Path) : Option (FileFacts S A C) := do
  let retained ← retained
  let previous ← (Foundation.Table.collect (retained.files.map fun file => (file.path, file))).lookup path
  if path ∈ retained.changedPaths then none else some previous

/-- Puts the facts of the pending sources among the retained ones, in the order of the sources. -/
def mergeFiles (generation : ℕ) (retained : Option (Retained S A C)) :
    List (SourceFile S O) → List (FileFacts S A C) → List (FileFacts S A C)
  | [], _ => []
  | file :: sources, made =>
    match Retained.file retained file.path with
    | some previous =>
      { previous with generation, source := file.source } ::
        mergeFiles generation retained sources made
    | none =>
      match made with
      | facts :: made => facts :: mergeFiles generation retained sources made
      | [] => mergeFiles generation retained sources []

def pendingOf (retained : Option (Retained S A C)) (sources : List (SourceFile S O)) :
    List (SourceFile S O) :=
  sources.filter fun file => (Retained.file retained file.path).isNone

def assembleFiles (generation : ℕ) (programHashes : Finmap fun _ : Path => Key) :
    List (SourceFile S O) → List (AstFacts A) → List (ExecutionMap C) →
      Except (BackendError ε) (List (FileFacts S A C))
  | file :: sources, ast :: asts, execution :: executions => do
      let facts ← assembleFile generation programHashes file ast execution
      let later ← assembleFiles generation programHashes sources asts executions
      pure (facts :: later)
  | _, _, _ => pure []

/-- The demand runs of the files, in path order; a planner's failure keeps what was planned before. -/
def demandRuns (options : Bool) : List (FileFacts S A C) → Stage A C R F ε PUnit
  | [] => pure ⟨⟩
  | file :: files => do
      let known ← Act.read fun cache => (cache.semanticDemands (tools.demandKey options file)).isSome
      if known then demandRuns options files
      else match tools.plan file options with
        | .error error => Act.throw (.other error)
        | .ok run => do
            Act.modify fun cache => { cache with
              semanticDemands := Function.update cache.semanticDemands
                (tools.demandKey options file) (some run) }
            demandRuns options files

def semanticDemandGroups (files : List (FileFacts S A C)) (options : Bool) :
    Stage A C R F ε (List (Path × R)) := do
  let ordered := sortByKey FileFacts.path files
  demandRuns tools options ordered
  Act.read fun cache => ordered.filterMap fun file =>
    (cache.semanticDemands (tools.demandKey options file)).map fun run => (file.path, run)

def hydrateRows (files : Finmap fun _ : Path => FileFacts S A C) :
    List (Path × F) → Stage A C R F ε (List (Path × F))
  | [] => pure []
  | (path, functions) :: rows =>
    match files.lookup path with
    | none => do
        let later ← hydrateRows files rows
        pure ((path, functions) :: later)
    | some file => do
        let kept ← Act.read fun cache => cache.structuralFunctions file.functionsKey
        let functions := kept.getD (tools.structuralFunctions file)
        Act.modify fun cache => { cache with
          structuralFunctions := Function.update cache.structuralFunctions
            file.functionsKey (some functions) }
        let later ← hydrateRows files rows
        pure ((path, functions) :: later)

end

def slashes (path : Path) : Path := path.map fun char => if char = '\\' then '/' else char

def checkHashes (hashes : Finmap fun _ : Path => Key) :
    List (FileFacts S A C) → Except (BackendError ε) PUnit
  | [] => pure ⟨⟩
  | file :: files =>
    match hashes.lookup file.path with
    | none => .error (.missingTypeScriptSource file.path)
    | some hash =>
      if hash ≠ file.sourceHash then .error (.typeScriptSourceHash file.path)
      else checkHashes hashes files

def join (generation : ℕ) (projectId : Key) (files : List (FileFacts S A C))
    (table : TypeScriptTable F B) : Except (BackendError ε) (List (FileFacts S A C)) := do
  if table.projectId ≠ projectId then .error .projectIdentity
  else if table.generation ≠ generation then .error .tableGeneration
  else do
    let files := sortByKey FileFacts.path files
    checkHashes (Foundation.Table.collect (table.sources.map fun (path, hash) => (slashes path, hash)))
      files
    pure files

def twoTexts : Tools Bool Unit Unit Unit Bool Unit Unit where
  hash source := [if source then 'b' else 'a']
  blank path := path.isEmpty
  normalizePath := slashes
  parse _ _ := .ok ()
  canonical := id
  json _ := []
  compile request := .ok ⟨request.sourceHash, ()⟩
  dialect := ['d']
  identity := ['i']
  plan file _ := .ok file.source
  structuralFunctions _ := ()
  hash_injective := by decide
  hash_plain := by decide
  json_injective _ _ _ := rfl
  json_plain _ := List.not_mem_nil
  plan_generation _ _ _ := rfl

end SolidChecker.Backend
