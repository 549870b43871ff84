/- source: apps/solid-typefacts/src/session.rs -/

import SolidChecker.Producer.Closure
import SolidChecker.Producer.Transition

namespace SolidChecker.Producer

open Foundation

structure SymbolQuery where
  id : SymbolId
  references : Bool
  referencesOnly : Bool

structure SymbolFact (Y : Type) where
  id : SymbolId
  body : Y
  references : List Location

structure SourceFile where
  path : Path
  source : List UInt8

structure Host (β H K F A Y G I : Type) extends Backend β H K F A where
  strictNullChecks : Act β String (Option Bool)
  symbolEvidence : List SymbolQuery → Act β String (List (SymbolFact Y))
  changedReferences : Act β String (List SymbolId × Bool)
  releaseAnalysisState : β → β
  sourceFiles : Act β String (List SourceFile)
  writeSourceArena : List SourceFile → Act β String String
  moduleGraph : G → Act β String I
  close : Act β String PUnit
  removeSourceArena : Act β String PUnit
  /-- Packs and writes a transition. -/
  write : Transition H (EntityFact F) A → Act β String PUnit
  writeEvidence : ℕ → List (SymbolFact Y) → Act β String PUnit

inductive Operation
  | open
  | update
  | analyze
  | symbols
  | sources
  | modules
  | cancel
  | close
  deriving DecidableEq

structure Request (K C G : Type) where
  schema : ℕ
  requestId : ℕ
  projectId : Path
  generation : ℕ
  operation : Operation
  /-- An operation the protocol does not have. -/
  badOperation : Option (List Char)
  changes : List FileChange
  demands : List (EntityDemand K)
  compactDemands : Option (CompactDemands C)
  removedDemandPaths : List Path
  resetState : Bool
  stateToken : String
  symbolQueries : List SymbolQuery
  releaseAnalysis : Bool
  referenceChanges : Bool
  referencePaths : List Path
  moduleGraph : G

inductive ErrorCode
  | invalidRequest
  | projectMismatch
  | sessionClosed
  | generationMismatch
  | updateFailed
  | invalidDemands
  | stateMismatch
  | analysisFailed
  | analysisCancelled
  | assemblyFailed
  | sourcesFailed
  | modulesFailed
  | closeFailed
  deriving DecidableEq

inductive ErrorMessage
  | text (text : String)
  | encode (error : EncodeError)

structure Refusal where
  code : ErrorCode
  message : ErrorMessage

structure Response (H F A Y I : Type) where
  generation : ℕ
  affected : List Path := []
  graphKept : Bool := false
  stateToken : String := ""
  transition : Option (Transition H (EntityFact F) A) := none
  strictNullChecks : Option Bool := none
  symbolEvidence : List (SymbolFact Y) := []
  changedReferenceSymbols : List SymbolId := []
  referenceChangesExact : Bool := false
  referenceEvidence : List (SymbolFact Y) := []
  sources : List SourceFile := []
  sourceArena : String := ""
  sourceLengths : List ℕ := []
  modules : Option I := none

structure Session (β H K F A C : Type) where
  closure : DemandClosure β H F A
  projectId : Path
  token : ℕ
  tokenText : String
  demands : List (DemandGroup K C)
  /-- The table the token names, without its rows. -/
  table : Option (ProducerTable H (EntityFact F) A)
  closed : Bool
  closeError : Option String
  inlineSources : Bool

variable {β H K F A C Y G I : Type}

abbrev SessionStep (β H K F A C α : Type) := Act (Session β H K F A C) Refusal α

def generationMismatch : String := "type facts generation mismatch"

def mergeQuery (merged : List SymbolQuery) (query : SymbolQuery) : List SymbolQuery :=
  if merged.any fun other => decide (other.id = query.id) then
    merged.map fun other =>
      if other.id = query.id then
        { other with
          references := other.references || query.references
          referencesOnly := other.referencesOnly && query.referencesOnly }
      else other
  else merged ++ [query]

def evidenceTable (evidence : List (SymbolFact Y)) : List (SymbolFact Y) :=
  (Grouping.runs SymbolFact.id (Grouping.sortByKey SymbolFact.id evidence)).filterMap List.head?

namespace DemandClosure

variable (host : Host β H K F A Y G I)

def resolveSymbolEvidence (queries : List SymbolQuery) :
    ClosureStep β H F A (List (SymbolFact Y)) :=
  ask (host.symbolEvidence (queries.foldl mergeQuery []))

variable (request : Request K C G) (response : Response H F A Y I)

def carryEvidence (evidence : List (SymbolFact Y)) : ClosureStep β H F A (Response H F A Y I) :=
  if request.operation = .symbols ∧ !evidence.isEmpty then do
    (ask (host.writeEvidence request.generation (evidenceTable evidence))).catching fun text =>
      Act.throw ("pack symbol evidence: " ++ text)
    pure response
  else pure { response with symbolEvidence := evidence }

def carryReferences : ClosureStep β H F A (Response H F A Y I) :=
  if request.referenceChanges then do
    let (ids, exact) ← ask host.changedReferences
    let response := { response with changedReferenceSymbols := ids, referenceChangesExact := exact }
    if exact ∧ ids ≠ [] ∧ request.referencePaths ≠ [] then do
      let evidence ← resolveSymbolEvidence host (ids.map fun id => ⟨id, true, false⟩)
      let paths := request.referencePaths.map Path.clean
      pure { response with
        referenceEvidence := evidence.map fun fact => { fact with
          references := fact.references.filter fun location => decide (location.path ∈ paths) } }
    else pure response
  else pure response

/-- The client of an inexact reference delta asks on before it lets the analysis go. -/
def releaseAnalysis : ClosureStep β H F A PUnit :=
  if request.releaseAnalysis ∧ ¬(request.referenceChanges ∧ !response.referenceChangesExact) then
    Act.modify fun closure => closure.setBackend (host.releaseAnalysisState closure.backend)
  else pure ⟨⟩

def populateSymbolEvidence : ClosureStep β H F A (Response H F A Y I) := do
  let evidence ← resolveSymbolEvidence host request.symbolQueries
  let response ← carryEvidence host request response evidence
  let response ← carryReferences host request response
  releaseAnalysis host request response
  pure response

end DemandClosure

namespace Session

def new (backend : β) (projectId : Path) (inlineSources : Bool) :
    Except String (Session β H K F A C) :=
  if projectId.clean = [] ∨ projectId.clean = ['.'] then
    .error "Type Facts session requires a project identity"
  else .ok ⟨DemandClosure.new backend, projectId.clean, 0, "", [], none, false, none, inlineSources⟩

def setClosure (session : Session β H K F A C) (closure : DemandClosure β H F A) :
    Session β H K F A C := { session with closure }

def refuse {α : Type} (code : ErrorCode) (text : String) : SessionStep β H K F A C α :=
  Act.throw ⟨code, .text text⟩

def attempt {α : Type} (step : ClosureStep β H F A α) :
    SessionStep β H K F A C (Except String α) := fun session =>
  (.ok (step session.closure).1, session.setClosure (step session.closure).2)

def ask {α : Type} (question : Act β String α) : SessionStep β H K F A C (Except String α) :=
  attempt (DemandClosure.ask question)

variable (host : Host β H K F A Y G I)

def stopped : SessionStep β H K F A C Bool := fun session =>
  let (cancelled, backend) := host.cancelled session.closure.backend
  (.ok cancelled, session.setClosure (session.closure.setBackend backend))

def checkCancelled : SessionStep β H K F A C PUnit := do
  let cancelled ← stopped host
  if cancelled then refuse .analysisCancelled "context canceled" else pure ⟨⟩

def unlessCancelled {α : Type} (code : ErrorCode) (step : ClosureStep β H F A α) :
    SessionStep β H K F A C α := do
  match ← attempt step with
  | .ok value => pure value
  | .error text => do
      checkCancelled host
      refuse code text

def orRefuse {α : Type} (code : ErrorCode) (step : SessionStep β H K F A C (Except String α)) :
    SessionStep β H K F A C α := do
  match ← step with
  | .ok value => pure value
  | .error text => refuse code text

section

variable [DecidableEq H] [DecidableEq F] [DecidableEq A]

def encodeTransition (baseStateToken : String) (base : Option (ProducerTable H (EntityFact F) A))
    (target : ProducerTable H (EntityFact F) A) (sparse : Bool) :
    SessionStep β H K F A C (Except EncodeError (Transition H (EntityFact F) A)) := do
  match encode baseStateToken base target sparse with
  | .error error => pure (.error error)
  | .ok transition =>
    if transition.mode = .delta ∧ transition.baseGeneration = transition.targetGeneration ∧
        transition.paths = [] then pure (.ok transition)
    else match ← ask (host.write transition) with
      | .ok _ => pure (.ok transition)
      | .error text => pure (.error (.sink text))

variable (codec : Codec K C)

/-- Where no sparse transition can be told, the table is built again and sent whole. -/
def transitionTo (cells : EntityCells F) (request : Request K C G)
    (transaction : DemandTransaction K C) (generation : ℕ)
    (analyzed : ProducerTable H (EntityFact F) A) :
    SessionStep β H K F A C (ProducerTable H (EntityFact F) A × Transition H (EntityFact F) A) := do
  let session ← Act.read id
  let base := if request.resetState then none else session.table
  let baseToken := if base.isSome then session.tokenText else ""
  match ← encodeTransition host baseToken base analyzed true with
  | .ok transition => pure (analyzed, transition)
  | .error .sparseUnavailable => do
      Act.modify fun session => session.setClosure session.closure.resetAnalysisState
      let rebuilt ← attempt (DemandClosure.demandTableForPreparedGroups host.toBackend codec cells
        generation transaction.groups transaction.changedPaths)
      match rebuilt with
      | .error text => Act.throw ⟨.assemblyFailed, .encode (.invalid (.rebuild text))⟩
      | .ok rebuilt =>
        match ← encodeTransition host "" none rebuilt false with
        | .ok transition => pure (rebuilt, transition)
        | .error error => Act.throw ⟨.assemblyFailed, .encode error⟩
  | .error error => Act.throw ⟨.assemblyFailed, .encode error⟩

def addEvidence (request : Request K C G) (response : Response H F A Y I) :
    SessionStep β H K F A C (Response H F A Y I) :=
  if request.symbolQueries.isEmpty ∧ !request.referenceChanges ∧ !request.releaseAnalysis then
    pure response
  else
    unlessCancelled host .analysisFailed
      (DemandClosure.populateSymbolEvidence host request response)

def analyzeGroups (cells : EntityCells F) (request : Request K C G)
    (transaction : DemandTransaction K C) :
    SessionStep β H K F A C (ProducerTable H (EntityFact F) A × Response H F A Y I) := do
  let session ← Act.read id
  let generation := session.closure.generation
  let analyzed ← unlessCancelled host .analysisFailed
    (DemandClosure.demandTableForPreparedGroups host.toBackend codec cells generation
      transaction.groups transaction.changedPaths)
  checkCancelled host
  let strict ← orRefuse .analysisFailed (ask host.strictNullChecks)
  let (analyzed, transition) ← transitionTo host codec cells request transaction generation analyzed
  let carried := decide (transition.mode ≠ .delta) ||
    decide (some analyzed.generation ≠ session.table.map ProducerTable.generation) ||
    decide (transition.paths ≠ [])
  let response : Response H F A Y I :=
    { generation
      strictNullChecks := strict
      stateToken := toString (session.token + 1)
      transition := if carried then some transition else none }
  checkCancelled host
  let response ← addEvidence host request response
  checkCancelled host
  pure (analyzed, response)

def beginDemands (request : Request K C G) : SessionStep β H K F A C (DemandTransaction K C) := do
  let groups ← Act.read Session.demands
  match request.compactDemands with
  | some compact =>
    match beginCompact codec groups compact request.removedDemandPaths request.resetState with
    | .ok transaction => pure transaction
    | .error text => refuse .invalidDemands text
  | none => pure (beginPlain groups request.demands request.removedDemandPaths request.resetState)

/-- Edits the demand set, builds the table, hands it out and publishes it; nothing is published if
a step fails. -/
def analyze (cells : EntityCells F) (request : Request K C G) :
    SessionStep β H K F A C (Response H F A Y I) := do
  let transaction ← beginDemands codec request
  Act.modify fun session => { session with demands := transaction.groups }
  let (analyzed, response) ← (analyzeGroups host codec cells request transaction).catching
    fun refusal => do
      Act.modify fun session =>
        { session with
          closure := session.closure.resetAnalysisState
          demands := transaction.rollback }
      Act.throw refusal
  Act.modify fun session =>
    { session with
      token := session.token + 1
      tokenText := toString (session.token + 1)
      table := some analyzed.released
      closure := session.closure.releaseTransportRows }
  pure response

end

def validate (request : Request K C G) : Except Refusal PUnit :=
  if request.schema ≠ 1 then
    .error ⟨.invalidRequest, .text ("unsupported TypeFacts schema " ++ toString request.schema)⟩
  else if request.requestId = 0 ∨ request.projectId = [] ∨ request.generation = 0 then
    .error ⟨.invalidRequest, .text generationMismatch⟩
  else match request.badOperation with
    | some operation =>
      .error ⟨.invalidRequest, .text ("unsupported lifecycle operation " ++ Path.quote operation)⟩
    | none => .ok ⟨⟩

def expectGeneration (request : Request K C G) (generation : ℕ) : SessionStep β H K F A C PUnit :=
  if request.generation ≠ generation then refuse .generationMismatch generationMismatch
  else pure ⟨⟩

def sources (host : Host β H K F A Y G I) (response : Response H F A Y I) :
    SessionStep β H K F A C (Response H F A Y I) := do
  let inlineSources ← Act.read Session.inlineSources
  let files ← orRefuse .sourcesFailed (ask host.sourceFiles)
  if inlineSources then pure { response with sources := files }
  else do
    let arena ← orRefuse .sourcesFailed (ask (host.writeSourceArena files))
    pure { response with
      sourceArena := arena
      sources := files.map fun file => { file with source := [] }
      sourceLengths := files.map fun file => file.source.length }

/-- Closes the backend and removes the sources arena; the session is closed either way. -/
def close : SessionStep β H K F A C PUnit := do
  Act.modify fun session =>
    { session with closed := true, closure := session.closure.resetAnalysisState }
  let backend ← ask host.close
  let arena ← ask host.removeSourceArena
  let failures := [backend, arena].filterMap fun outcome =>
    match outcome with
    | .ok _ => none
    | .error text => some text
  if failures = [] then pure ⟨⟩
  else do
    let text := "\n".intercalate failures
    Act.modify fun session => { session with closeError := some text }
    refuse .closeFailed text

section

variable [DecidableEq H] [DecidableEq F] [DecidableEq A]

def asksNothing (session : Session β H K F A C) (request : Request K C G) : Bool :=
  !request.resetState && request.demands.isEmpty &&
    (request.compactDemands.elim true fun compact => compact.groups.isEmpty) &&
    request.removedDemandPaths.isEmpty &&
    (session.table.elim false fun table => decide (table.generation = session.closure.generation))

def serve (codec : Codec K C) (cells : EntityCells F) (request : Request K C G) :
    SessionStep β H K F A C (Response H F A Y I) := do
  let session ← Act.read id
  let generation := session.closure.generation
  let response : Response H F A Y I := { generation }
  match request.operation with
  | .open => do
      expectGeneration request generation
      pure response
  | .update => do
      expectGeneration request (generation + 1)
      let outcome ← orRefuse .updateFailed
        (attempt (DemandClosure.update host.toBackend request.changes))
      let generation ← Act.read fun session => session.closure.generation
      pure { response with
        generation, affected := outcome.affected, graphKept := outcome.graphKept }
  | .analyze => do
      expectGeneration request generation
      if request.compactDemands.isSome ∧ !request.demands.isEmpty then
        refuse .invalidDemands "analyze carries both demands and compactDemands"
      else if !request.resetState ∧ request.stateToken ≠ session.tokenText then
        refuse .stateMismatch generationMismatch
      else if asksNothing session request then do
        let strict ← orRefuse .analysisFailed (ask host.strictNullChecks)
        pure { response with stateToken := session.tokenText, strictNullChecks := strict }
      else analyze host codec cells request
  | .symbols => do
      expectGeneration request generation
      if request.stateToken = "" ∨ request.stateToken ≠ session.tokenText then
        refuse .stateMismatch (generationMismatch ++ ": symbol evidence token " ++
          Path.quote request.stateToken.toList ++ ", retained token " ++
          Path.quote session.tokenText.toList)
      else
        unlessCancelled host .analysisFailed
          (DemandClosure.populateSymbolEvidence host request response)
  | .sources => do
      expectGeneration request generation
      sources host response
  | .modules => do
      expectGeneration request generation
      let modules ← unlessCancelled host .modulesFailed
        (DemandClosure.ask (host.moduleGraph request.moduleGraph))
      pure { response with modules := some modules }
  | .cancel => pure response
  | .close => do
      expectGeneration request generation
      close host
      pure response

def lifecycle (codec : Codec K C) (cells : EntityCells F) (request : Request K C G) :
    SessionStep β H K F A C (Response H F A Y I) := do
  Act.ofExcept (validate request)
  let session ← Act.read id
  if request.projectId.clean ≠ session.projectId then refuse .projectMismatch generationMismatch
  else if session.closed then
    if request.operation = .close ∧ session.closeError = none then
      pure { generation := session.closure.generation }
    else refuse .sessionClosed "Type Facts session is closed"
  else serve host codec cells request

def run (codec : Codec K C) (cells : EntityCells F) (session : Session β H K F A C)
    (requests : List (Request K C G)) : Session β H K F A C :=
  requests.foldl (fun session request => (lifecycle host codec cells request session).2) session

end

end Session

end SolidChecker.Producer
