/- source: solid-facts-backend/src/lib.rs; solid-facts/src/resolution.rs -/

import Mathlib.Data.Finset.Sort
import Mathlib.Data.Prod.Lex
import SolidChecker.Backend.Facts

namespace SolidChecker.Backend

open Foundation (Act)
open Foundation.Grouping (sortByKey)
open Producer (Path)

structure SourceChange (S O : Type) where
  path : Path
  version : ℕ
  source : Option S
  compilerOptions : O

structure WireChange (S : Type) where
  path : Path
  version : ℕ
  source : Option S

structure AttestedImport (I : Type) where
  start : ℕ
  stop : ℕ
  resolution : I

structure ModuleGraph (I : Type) where
  imports : List (Path × AttestedImport I)
  unknownImportPaths : List Path

structure UpdateGraph where
  epoch : ℕ
  generation : ℕ
  kept : Bool

abbrev AttestedImportIndex (I : Type) := Finmap fun _ : Path => List (AttestedImport I)

structure ProjectFacts (S A C F B I : Type) where
  generation : ℕ
  files : List (FileFacts S A C)
  table : TypeScriptTable F B
  resolvedImports : Option (AttestedImportIndex I)

/-- The Type Facts session a native session talks to, and the flag its caller may raise. -/
structure TypeFacts (S A C R F B I ε τ : Type) where
  updateDuring : List (WireChange S) → Act τ (BackendError ε) PUnit
  semanticGrouped : List (Path × R) → Act τ (BackendError ε) (TypeScriptTable F B)
  moduleGraph : List Path → Act τ (BackendError ε) (ModuleGraph I)
  /-- The step joined facts pass through before they are attested. -/
  transform : ProjectFacts S A C F B I → Act τ (BackendError ε) PUnit
  restartEpoch : τ → ℕ
  lastUpdateGraph : τ → Option UpdateGraph
  cancelled : τ → Bool × τ
  isTransportFailure : ε → Bool

structure Built (S O A C R : Type) where
  generation : ℕ
  sources : List (SourceFile S O)
  programHashes : Finmap fun _ : Path => Key
  options : Bool
  files : List (FileFacts S A C)
  groups : List (Path × R)

/-- A retained session; `built` is what its builds joined and sent, and no function reads it. -/
structure NativeSession (S O A C R F B I τ : Type) where
  projectId : Key
  generation : ℕ
  sources : Finmap fun _ : Path => SourceFile S O
  cache : FactsCache A C R F
  lastFacts : Option (ProjectFacts S A C F B I)
  attestedEpoch : Option ℕ
  semanticDemandOptions : Bool
  programHashes : Finmap fun _ : Path => Key
  typescript : τ
  built : List (Built S O A C R)

variable {S O A C R F B I ε τ T : Type}

namespace NativeSession

abbrev Step (S O A C R F B I ε τ α : Type) :=
  Act (NativeSession S O A C R F B I τ) (BackendError ε) α

def isTypefactsTransportFailure (ts : TypeFacts S A C R F B I ε τ) : BackendError ε → Bool
  | .process _ => true
  | .other error => ts.isTransportFailure error
  | _ => false

def openRewritten (projectId : Key) (sources : List (SourceFile S O))
    (programHashes : Finmap fun _ : Path => Key) (typescript : τ) :
    NativeSession S O A C R F B I τ :=
  { projectId
    generation := 1
    sources := Foundation.Table.collect (sources.map fun source => (source.path, source))
    cache := FactsCache.empty
    lastFacts := none
    attestedEpoch := none
    semanticDemandOptions := false
    programHashes
    typescript
    built := [] }

def setSemanticDemandOptions (options : Bool) (session : NativeSession S O A C R F B I τ) :
    NativeSession S O A C R F B I τ :=
  { session with
    semanticDemandOptions := options
    lastFacts := if options && !session.semanticDemandOptions then none else session.lastFacts }

def ask {α : Type} (act : Act τ (BackendError ε) α) : Step S O A C R F B I ε τ α :=
  Act.zoom typescript (fun session typescript => { session with typescript }) act

def withCache {α : Type} (act : Stage A C R F ε α) : Step S O A C R F B I ε τ α :=
  Act.zoom cache (fun session cache => { session with cache }) act

def checkCancelled (ts : TypeFacts S A C R F B I ε τ) (cancellable : Bool) :
    Step S O A C R F B I ε τ PUnit :=
  if cancellable then do
    let raised ← ask fun typescript => (.ok (ts.cancelled typescript).1, (ts.cancelled typescript).2)
    if raised then Act.throw .cancelled else pure ⟨⟩
  else pure ⟨⟩

def sortedSources (session : NativeSession S O A C R F B I τ) : List (SourceFile S O) :=
  (session.sources.keys.sort (· ≤ ·)).filterMap session.sources.lookup

def buildProject (tools : Tools S O A C R F ε) (ts : TypeFacts S A C R F B I ε τ)
    (generation : ℕ) (cancellable : Bool) (retained : Option (Retained S A C)) :
    Step S O A C R F B I ε τ (ProjectFacts S A C F B I) := do
  let session ← Act.read id
  let sources := sortedSources session
  checkCancelled ts cancellable
  let pending := pendingOf retained sources
  let asts ← withCache (prepareAst tools pending)
  checkCancelled ts cancellable
  let executions ← withCache (prepareCompiler tools pending)
  checkCancelled ts cancellable
  let made ← Act.ofExcept (assembleFiles generation session.programHashes pending asts executions)
  let files := mergeFiles generation retained sources made
  checkCancelled ts cancellable
  let groups ← withCache (semanticDemandGroups tools files session.semanticDemandOptions)
  Act.modify fun after => { after with
    built := after.built ++ [⟨generation, sources, session.programHashes,
      session.semanticDemandOptions, files, groups⟩] }
  let table ← ask (ts.semanticGrouped groups)
  checkCancelled ts cancellable
  let byPath := Foundation.Table.collect (files.map fun file => (file.path, file))
  let rows ← withCache (hydrateRows tools byPath table.files)
  let table := { table with files := rows }
  let files ← Act.ofExcept (join generation session.projectId files table)
  pure ⟨generation, files, table, none⟩

section

variable (ts : TypeFacts S A C R F B I ε τ)

def attestedRows (graph : ModuleGraph I) : Finmap fun _ : Path => List (AttestedImport I) :=
  graph.imports.foldl (fun rows row => rows.insert row.1 ((rows.lookup row.1).getD [] ++ [row.2])) ∅

def insertFile (path : Path) (rows : List (AttestedImport I)) (index : AttestedImportIndex I) :
    AttestedImportIndex I :=
  index.insert path (sortByKey (fun row => toLex (row.start, row.stop)) rows)

/-- Takes the rows of each path out of the answer and records them; a path named again has none
left. -/
def recordFiles (paths : List Path) (rows : Finmap fun _ : Path => List (AttestedImport I))
    (index : AttestedImportIndex I) : AttestedImportIndex I :=
  (paths.foldl (fun held path =>
    (held.1.erase path, insertFile path ((held.1.lookup path).getD []) held.2)) (rows, index)).2

def attestImportIdentities (scope : List Path) : Step S O A C R F B I ε τ (AttestedImportIndex I) := do
  let graph ← ask (ts.moduleGraph scope)
  pure (recordFiles (scope.filter fun path => decide (path ∉ graph.unknownImportPaths))
    (attestedRows graph) ∅)

/-- The previous attestation with the edited files asked again, if the program holds them all. -/
def patchImportIdentities (previous : AttestedImportIndex I) (edited : List Path) :
    Step S O A C R F B I ε τ (Option (AttestedImportIndex I)) := do
  let graph ← ask (ts.moduleGraph edited)
  if graph.unknownImportPaths = [] then
    pure (some (recordFiles edited (attestedRows graph) previous))
  else pure none

variable (facts : ProjectFacts S A C F B I)

/-- The previous generation's attestation patched, where the update left every other row. -/
def keptAttestation (scope edited : List Path) :
    Step S O A C R F B I ε τ (Option (AttestedImportIndex I)) := do
  let session ← Act.read id
  match ts.lastUpdateGraph session.typescript with
  | none => pure none
  | some update =>
    if update.kept = false ∨ update.generation ≠ facts.generation ∨
        session.attestedEpoch ≠ some update.epoch then pure none
    else match (session.lastFacts.filter fun previous =>
        decide (previous.generation + 1 = facts.generation)).bind ProjectFacts.resolvedImports with
      | none => pure none
      | some previous =>
        if previous.keys.card ≠ scope.length ∨ (scope.any fun path =>
            decide (path ∉ previous.keys)) then pure none
        else patchImportIdentities ts previous (edited.filter fun path => decide (path ∈ scope))

def firstAttestation (scope : List Path) (edited : Option (List Path)) :
    Step S O A C R F B I ε τ (AttestedImportIndex I) := do
  let kept ← edited.elim (pure none) (keptAttestation ts facts scope)
  kept.elim (attestImportIdentities ts scope) pure

def attestAgain (scope : List Path) (epoch : ℕ) :
    Step S O A C R F B I ε τ (AttestedImportIndex I) := do
  let index ← attestImportIdentities ts scope
  let again ← Act.read fun session => ts.restartEpoch session.typescript
  if again ≠ epoch then do
    Act.modify fun session => { session with attestedEpoch := none }
    Act.throw (.process "the Type Facts producer restarted twice while attesting imports")
  else pure index

def attestScope (scope : List Path) (edited : Option (List Path)) :
    Step S O A C R F B I ε τ (AttestedImportIndex I) := do
  let epoch ← Act.read fun session => ts.restartEpoch session.typescript
  let index ← firstAttestation ts facts scope edited
  let after ← Act.read fun session => ts.restartEpoch session.typescript
  if after ≠ epoch then attestAgain ts scope after else pure index

def attested (edited : Option (List Path)) :
    Step S O A C R F B I ε τ (ProjectFacts S A C F B I) := do
  ask (ts.transform facts)
  if facts.files.isEmpty then pure facts
  else do
    let index ← attestScope ts facts (facts.files.map FileFacts.path) edited
    Act.modify fun session => { session with
      attestedEpoch := some (ts.restartEpoch session.typescript) }
    pure { facts with resolvedImports := some index }

end

section

variable (tools : Tools S O A C R F ε) (ts : TypeFacts S A C R F B I ε τ)

def analyze (cancellable : Bool) : Step S O A C R F B I ε τ (ProjectFacts S A C F B I) := do
  checkCancelled ts cancellable
  let session ← Act.read id
  match session.lastFacts.filter fun facts => decide (facts.generation = session.generation) with
  | some facts => pure facts
  | none => do
      let facts ← buildProject tools ts session.generation cancellable none
      let facts ← attested ts facts none
      Act.modify fun session => { session with lastFacts := some facts }
      pure facts

def recoveryAttempts : ℕ := 3

def analyzeWithRecovery (cancellable : Bool) :
    ℕ → Step S O A C R F B I ε τ (ProjectFacts S A C F B I)
  | 0 => analyze tools ts cancellable
  | attempts + 1 => (analyze tools ts cancellable).catching fun error =>
    if isTypefactsTransportFailure ts error then analyzeWithRecovery cancellable attempts
    else Act.throw error

abbrev Displaced (S O : Type) := Path × Option (SourceFile S O) × Option Key

variable (session : NativeSession S O A C R F B I τ) (change : SourceChange S O)

def applyChange : NativeSession S O A C R F B I τ :=
  { session with
    programHashes := session.programHashes.erase change.path
    cache := session.cache.invalidatePath change.path
    sources := match change.source with
      | some source =>
        session.sources.insert change.path ⟨change.path, source, change.compilerOptions⟩
      | none => session.sources.erase change.path }

def displacedBy : Displaced S O :=
  (change.path, session.sources.lookup change.path, session.programHashes.lookup change.path)

def applyOverlay : List (SourceChange S O) → NativeSession S O A C R F B I τ →
    List (Displaced S O) × NativeSession S O A C R F B I τ
  | [], session => ([], session)
  | change :: changes, session =>
    let (displaced, applied) := applyOverlay changes (applyChange session change)
    (displacedBy session change :: displaced, applied)

def restoreEntry (entry : Displaced S O) : NativeSession S O A C R F B I τ :=
  { session with
    cache := session.cache.invalidatePath entry.1
    programHashes := match entry.2.2 with
      | some hash => session.programHashes.insert entry.1 hash
      | none => session.programHashes
    sources := match entry.2.1 with
      | some source => session.sources.insert entry.1 source
      | none => session.sources.erase entry.1 }

def restoreOverlay (displaced : List (Displaced S O)) (session : NativeSession S O A C R F B I τ) :
    NativeSession S O A C R F B I τ :=
  displaced.foldl restoreEntry session

/-- An edit under way: whether its update landed, and the caller's work that overlaps it. -/
structure Editing (S O A C R F B I τ T : Type) where
  session : NativeSession S O A C R F B I τ
  updateLanded : Bool
  during : Option T
  overlapped : Option T

inductive Edited (S A C F B I T : Type)
  | facts (facts : ProjectFacts S A C F B I) (overlapped : Option T)
  | abandoned (made : T)

abbrev EditStep (S O A C R F B I ε τ T α : Type) :=
  Act (Editing S O A C R F B I τ T) (BackendError ε) α

def onSession {α : Type} (act : Step S O A C R F B I ε τ α) : EditStep S O A C R F B I ε τ T α :=
  Act.zoom Editing.session (fun editing session => { editing with session }) act

/-- Sends the update unless it has landed, with the caller's work of the first attempt; the made
value if the work said to abandon the edit. -/
def landUpdate (wire : List (WireChange S)) (cancellable : Bool) (abandon : T → Bool) :
    EditStep S O A C R F B I ε τ T (Option T) := do
  let landed ← Act.read Editing.updateLanded
  if landed then pure none
  else do
    let work ← Act.read Editing.during
    Act.modify fun editing => { editing with during := none }
    onSession (ask (ts.updateDuring wire))
    Act.modify fun editing => { editing with
      updateLanded := true
      overlapped := work <|> editing.overlapped }
    onSession (checkCancelled ts cancellable)
    let overlapped ← Act.read Editing.overlapped
    pure (overlapped.filter abandon)

def editAttempt (nextGeneration : ℕ) (wire : List (WireChange S)) (cancellable : Bool)
    (abandon : T → Bool) : EditStep S O A C R F B I ε τ T (T ⊕ ProjectFacts S A C F B I) := do
  let abandoned ← landUpdate ts wire cancellable abandon
  match abandoned with
  | some made => pure (.inl made)
  | none => do
      let session ← Act.read Editing.session
      let retained := (session.lastFacts.filter fun facts =>
        decide (facts.generation = session.generation)).map fun facts =>
          (⟨facts.files, wire.map WireChange.path⟩ : Retained S A C)
      let facts ← onSession (buildProject tools ts nextGeneration cancellable retained)
      pure (.inr facts)

def followUpdate (nextGeneration : ℕ) (editing : Editing S O A C R F B I τ T) :
    Editing S O A C R F B I τ T :=
  if editing.updateLanded then
    { editing with session := { editing.session with generation := nextGeneration } }
  else editing

def finishEdit (wire : List (WireChange S)) (facts : ProjectFacts S A C F B I) :
    EditStep S O A C R F B I ε τ T (Edited S A C F B I T) := do
  let facts ← onSession (attested ts facts (some (wire.map WireChange.path)))
  Act.modify fun editing => { editing with
    session := { editing.session with lastFacts := some facts } }
  let overlapped ← Act.read Editing.overlapped
  pure (.facts facts overlapped)

/-- An attempt and what follows from it: a transport failure goes on with `again` if there is one,
any other failure undoes an update that never landed. -/
def editOnce (nextGeneration : ℕ) (wire : List (WireChange S)) (displaced : List (Displaced S O))
    (cancellable : Bool) (abandon : T → Bool)
    (again : Option (EditStep S O A C R F B I ε τ T (Edited S A C F B I T))) :
    EditStep S O A C R F B I ε τ T (Edited S A C F B I T) := fun editing =>
  let (result, attempted) := editAttempt tools ts nextGeneration wire cancellable abandon editing
  let attempted := followUpdate nextGeneration attempted
  match result with
  | .ok (.inl made) => (.ok (.abandoned made), attempted)
  | .ok (.inr facts) => finishEdit ts wire facts attempted
  | .error error =>
    match again.filter fun _ => isTypefactsTransportFailure ts error with
    | some again => again attempted
    | none => (.error error, if attempted.updateLanded then attempted
        else { attempted with session := restoreOverlay displaced attempted.session })

def editLoop (nextGeneration : ℕ) (wire : List (WireChange S)) (displaced : List (Displaced S O))
    (cancellable : Bool) (abandon : T → Bool) :
    ℕ → EditStep S O A C R F B I ε τ T (Edited S A C F B I T)
  | 0 => editOnce tools ts nextGeneration wire displaced cancellable abandon none
  | attempts + 1 => editOnce tools ts nextGeneration wire displaced cancellable abandon
      (some (editLoop nextGeneration wire displaced cancellable abandon attempts))

def wireChange : WireChange S :=
  ⟨change.path, change.version, change.source⟩

def editDuring (changes : List (SourceChange S O)) (cancellable : Bool) (during : T)
    (abandon : T → Bool) : EditStep S O A C R F B I ε τ T (Edited S A C F B I T) := do
  onSession (checkCancelled ts cancellable)
  if changes.isEmpty then do
    let facts ← onSession (analyzeWithRecovery tools ts cancellable recoveryAttempts)
    pure (.facts facts none)
  else do
    let session ← Act.read Editing.session
    if 2 ^ 64 ≤ session.generation + 1 then Act.throw .generation
    else do
      let (displaced, applied) := applyOverlay changes session
      Act.modify fun editing => { editing with session := applied, during := some during }
      editLoop tools ts (session.generation + 1) (changes.map wireChange) displaced cancellable abandon
        recoveryAttempts

end

end NativeSession

end SolidChecker.Backend
