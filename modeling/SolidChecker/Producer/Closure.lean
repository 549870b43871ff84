/- source: apps/solid-typefacts/src/closure.rs, retained.rs, contributions.rs, backend.rs -/

import SolidChecker.Foundation.Act
import SolidChecker.Foundation.Table
import SolidChecker.Producer.Demands
import SolidChecker.Producer.Table

namespace SolidChecker.Producer

open Foundation

abbrev SymbolId := List Char

structure EntityFact (F : Type) where
  location : Location
  cells : F
  deriving DecidableEq

structure EntityCells (F : Type) where
  blank : F
  merge : F → F → F

inductive RunAnswer (F : Type)
  | result (entities : List (EntityFact F))
  | rows (entities : List (EntityFact F))

structure FileChange where
  path : Path
  source : List UInt8
  deleted : Bool
  version : ℕ

structure UpdateOutcome where
  affected : List Path
  graphKept : Bool

/-- What the demand closure asks of a program, and whether the request is cancelled. -/
structure Backend (β H K F A : Type) where
  cancelled : β → Bool × β
  sourceDigests : Act β String (List (Path × H))
  update : List FileChange → Act β String UpdateOutcome
  discardDerivedState : β → β
  perFileDemandRuns : List (Path × List (EntityDemand K)) → List Location →
    Act β String (List (RunAnswer F) × List (Path × A))
  tracksContentVersions : β → Bool
  contentVersion : β → Path → Option ℕ

structure PathVersions (H : Type) where
  digests : Finmap fun _ : Path => Option H
  version : Path → Option ℕ

def PathVersions.get {H : Type} (versions : PathVersions H) (path : Path) :
    Option (Option ℕ × Option H) :=
  (versions.digests.lookup path).map fun digest => (versions.version path, digest)

structure DemandClosure (β H F A : Type) where
  backend : β
  table : Option (ProducerTable H (EntityFact F) A)
  previousTable : Option (ProducerTable H (EntityFact F) A)
  transportChangedPaths : Option (Finset Path)
  pathVersions : Option (ℕ × PathVersions H)
  generation : ℕ
  nextTableStateId : ℕ

variable {β H K F A C : Type}

def locationDebug (location : Location) : String :=
  "\x7bPath:" ++ String.ofList location.path ++ " StartByte:" ++ toString location.startByte ++
    " EndByte:" ++ toString location.endByte ++ "\x7d"

variable (cells : EntityCells F)

def prepareRow (rows : List (EntityFact F)) (entity : EntityFact F) : List (EntityFact F) :=
  match rows with
  | last :: before =>
    if last.location = entity.location then
      { last with cells := cells.merge last.cells entity.cells } :: before
    else ⟨entity.location, cells.merge cells.blank entity.cells⟩ :: rows
  | [] => [⟨entity.location, cells.merge cells.blank entity.cells⟩]

def prepareRowsFrom (cells : EntityCells F) (path : Path) (index : ℕ) :
    List (EntityDemand K × EntityFact F) → List (EntityFact F) → Except String (List (EntityFact F))
  | [], rows => .ok rows.reverse
  | (demand, entity) :: later, rows =>
    if entity.location ≠ demand.location then
      .error ("semantic demand run " ++ path.quote ++ " entity " ++ toString index ++
        " location = " ++ locationDebug entity.location ++ ", want " ++
        locationDebug demand.location)
    else prepareRowsFrom cells path (index + 1) later (prepareRow cells rows entity)

def prepareRows (path : Path) (demands : List (EntityDemand K)) (result : List (EntityFact F)) :
    Except String (List (EntityFact F)) :=
  if result.length ≠ demands.length then
    .error ("semantic demand run " ++ path.quote ++ " returned " ++ toString result.length ++
      " entities for " ++ toString demands.length ++ " demands")
  else prepareRowsFrom cells path 0 (demands.zip result) []

def RunAnswer.intoRows (path : Path) (demands : List (EntityDemand K)) :
    RunAnswer F → Except String (List (EntityFact F))
  | .result entities => prepareRows cells path demands entities
  | .rows entities => .ok entities

def rebuildContributions (runs : List (Path × List (EntityDemand K))) (results : List (RunAnswer F))
    : Except String (List (Path × List (EntityFact F))) :=
  if results.length ≠ runs.length then
    .error ("semantic demand run results = " ++ toString results.length ++ ", want " ++
      toString runs.length)
  else (runs.zip results).mapM fun (run, result) =>
    (result.intoRows cells run.1 run.2).map fun rows => (run.1, rows)

def asyncFactsAt (facts : List (Path × A)) (path : Path) : List A :=
  (facts.filter fun fact => decide (fact.1.clean = path)).map Prod.snd

def checkDigests : Option Path → List (Path × H) → Except String Unit
  | _, [] => .ok ()
  | previous, digest :: later =>
    if digest.1 = [] ∨ digest.1.clean ≠ digest.1 then
      .error ("source digest path " ++ digest.1.quote ++ " is not clean and non-empty")
    else if previous.any fun previous => decide (digest.1 ≤ previous) then
      .error ("source digests are not strictly path-ordered at " ++ digest.1.quote)
    else checkDigests (some digest.1) later

abbrev ClosureStep (β H F A α : Type) := Act (DemandClosure β H F A) String α

namespace DemandClosure

def new (backend : β) : DemandClosure β H F A := ⟨backend, none, none, none, none, 1, 0⟩

variable (closure : DemandClosure β H F A)

def setBackend (backend : β) : DemandClosure β H F A :=
  { closure with backend }

def ask {α : Type} (question : Act β String α) : ClosureStep β H F A α :=
  Act.zoom DemandClosure.backend setBackend question

variable (backend : Backend β H K F A)

def discardDerivedState : ClosureStep β H F A PUnit :=
  Act.modify fun closure => closure.setBackend (backend.discardDerivedState closure.backend)

def cancelled : ClosureStep β H F A PUnit := do
  let stopped ← ask fun state => (.ok (backend.cancelled state).1, (backend.cancelled state).2)
  if stopped then Act.throw "context canceled" else pure ⟨⟩

def releaseTransportRows : DemandClosure β H F A :=
  { closure with table := closure.table.map ProducerTable.released }

def resetAnalysisState : DemandClosure β H F A :=
  { closure with table := none, previousTable := none, transportChangedPaths := none }

def update (changes : List FileChange) : ClosureStep β H F A UpdateOutcome := do
  let outcome ← ask (backend.update changes)
  discardDerivedState backend
  Act.modify fun closure => { closure with
    table := none
    previousTable := closure.table
    transportChangedPaths := some
      (outcome.affected ++ changes.map fun change => change.path.clean).toFinset
    generation := closure.generation + 1 }
  pure outcome

def semanticSourceDigests : ClosureStep β H F A (List (Path × H)) := do
  let digests ← ask backend.sourceDigests
  Act.ofExcept (checkDigests none digests)
  pure digests

def pushFileFacts (backend : Backend β H K F A) (facts : List (Path × A)) :
    List (Path × H) → ClosureStep β H F A (List (Path × List A))
  | [] => pure []
  | source :: later => do
      cancelled backend
      let files ← pushFileFacts backend facts later
      pure ((source.1, asyncFactsAt facts source.1) :: files)

def versionsNow (state : β) (sources : List (Path × H)) (groups : List (DemandGroup K C)) :
    Option (PathVersions H) :=
  if backend.tracksContentVersions state then
    let digests := Table.collect (sources.map fun source => (source.1, some source.2))
    some ⟨groups.foldl (fun digests group =>
        if group.path ∈ digests then digests else digests.insert group.path none) digests,
      backend.contentVersion state⟩
  else none

def changedVersions [DecidableEq H] (now before : PathVersions H) : Finset Path :=
  (now.digests.keys.filter fun path => decide (before.get path ≠ now.get path)) ∪
    before.digests.keys.filter fun path => decide (path ∉ now.digests.keys)

def exactPaths [DecidableEq H] (versions : Option (PathVersions H)) : Option (Finset Path) :=
  match versions, closure.pathVersions, closure.previousTable with
  | some now, some (stateId, before), some previous =>
    if previous.stateId = stateId then some (changedVersions now before) else none
  | _, _, _ => none

variable (codec : Codec K C) (groups : List (DemandGroup K C))

def prepareRuns : Except String (List (Path × List (EntityDemand K)) × List Location) := do
  let locations ← groups.mapM (DemandGroup.asyncLocations codec)
  let runs ← groups.mapM fun group => (group.expanded codec).map fun demands => (group.path, demands)
  pure (runs, locations.flatten)

variable (cells : EntityCells F)

def answerRuns (runs : List (Path × List (EntityDemand K))) (locations : List Location) :
    ClosureStep β H F A (List (Path × List (EntityFact F)) × List (Path × A)) :=
  if runs = [] then pure ([], [])
  else do
    let (results, facts) ← ask (backend.perFileDemandRuns runs locations)
    let entities ← Act.ofExcept (rebuildContributions cells runs results)
    pure (entities, facts)

/-- Numbers a table, gives it its manifest, and makes it the one the next manifest starts from. -/
def publish [DecidableEq H] (generation : ℕ) (sources : List (Path × H))
    (entities : List (Path × List (EntityFact F))) (files : List (Path × List A)) :
    ClosureStep β H F A (ProducerTable H (EntityFact F) A) :=
  fun closure =>
    let stateId := closure.nextTableStateId + 1
    let versions := versionsNow backend closure.backend sources groups
    let changedPaths := match closure.exactPaths versions with
      | some paths => paths
      | none => closure.transportChangedPaths.getD ∅ ∪ (groups.map DemandGroup.path).toFinset
    let table := ⟨generation, stateId, sources,
      entities.filter fun run => decide (run.2 ≠ []), files,
      rustOwnedTransportManifest closure.previousTable changedPaths⟩
    (.ok table, { closure with
      nextTableStateId := stateId
      pathVersions := versions.map fun now => (stateId, now)
      previousTable := none
      transportChangedPaths := none })

def materializeGroups [DecidableEq H] (groups : List (DemandGroup K C)) (generation : ℕ) :
    ClosureStep β H F A (ProducerTable H (EntityFact F) A) := do
  let sources ← semanticSourceDigests backend
  let (runs, locations) ← Act.ofExcept (prepareRuns codec groups)
  let (entities, facts) ← answerRuns backend cells runs locations
  let files ← pushFileFacts backend facts sources
  publish backend groups generation sources entities files

def materializeDemandTable [DecidableEq H] (groups : List (DemandGroup K C)) (generation : ℕ) :
    ClosureStep β H F A PUnit := do
  discardDerivedState backend
  let table ← materializeGroups backend codec cells groups generation
  Act.modify fun closure => { closure with table := some table }

def invalidate (changedPaths : List Path) (closure : DemandClosure β H F A) :
    DemandClosure β H F A :=
  if changedPaths = [] then closure
  else { closure with
    table := none
    previousTable := if closure.table.isSome then closure.table else closure.previousTable
    transportChangedPaths := some (closure.transportChangedPaths.getD ∅ ∪
      (changedPaths.map Path.clean).toFinset) }

def ensureTable [DecidableEq H] (generation : ℕ) (groups : List (DemandGroup K C)) :
    ClosureStep β H F A PUnit := do
  let table ← Act.read DemandClosure.table
  if table.isNone then
    let groups := Grouping.sortByKey DemandGroup.path groups
    match namedTwice groups with
    | some path => Act.throw ("demand groups name " ++ path.quote ++
        " twice; each path may appear once")
    | none => materializeDemandTable backend codec cells groups generation
  else pure ⟨⟩

def unlessTwice (next : ClosureStep β H F A PUnit) : ClosureStep β H F A PUnit :=
  match namedTwice groups with
  | some path => Act.throw ("demand groups name " ++ path.quote ++
      " twice; each path may appear once")
  | none => next

def demandTableForPreparedGroups [DecidableEq H] (generation : ℕ) (groups : List (DemandGroup K C))
    (changedPaths : List Path) :
    ClosureStep β H F A (ProducerTable H (EntityFact F) A) := do
  let current ← Act.read DemandClosure.generation
  if generation ≠ current then Act.throw "type facts generation mismatch"
  else
    Act.modify (invalidate changedPaths)
    ensureTable backend codec cells generation groups
    let table ← Act.read DemandClosure.table
    match table with
    | some table => pure table
    | none => Act.throw "demand closure produced no table"

end DemandClosure

end SolidChecker.Producer
