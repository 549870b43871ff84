/- source: typefacts/src/v3.rs, retained_table.rs, session.rs -/

import Mathlib.Data.Prod.Lex
import Mathlib.Order.WithBot
import SolidChecker.Retained.StoredTable

namespace SolidChecker.Retained

open Foundation

inductive SlotOp (T : Type)
  | unchanged
  | replace (value : T)
  | remove
  deriving DecidableEq

structure PathOp (P H E X : Type) where
  path : P
  source : SlotOp H
  entities : SlotOp (List E)
  file : SlotOp X

inductive SymbolOp (P I : Type)
  | replace (symbol : SymbolFact P I)
  | remove (id : I)
  | replaceReferencePath (id : I) (path : P) (references : List (Location P))

namespace SymbolOp

variable {P I : Type}

def id : SymbolOp P I → I
  | replace symbol => symbol.id
  | remove id => id
  | replaceReferencePath id _ _ => id

/-- What symbol operations are ordered by: the id, then the tag, then the path of references. -/
def sortKey : SymbolOp P I → I ×ₗ (ℕ ×ₗ WithBot P)
  | replace symbol => toLex (symbol.id, toLex (0, ⊥))
  | remove id => toLex (id, toLex (1, ⊥))
  | replaceReferencePath id path _ => toLex (id, toLex (2, path))

/-- References as a decoded operation carries them: in path order, or all in the path it names. -/
def Canonical [LinearOrder P] : SymbolOp P I → Prop
  | replace symbol => symbol.references.Pairwise fun first second => first.path ≤ second.path
  | remove _ => True
  | replaceReferencePath _ path references => ∀ reference ∈ references, reference.path = path

end SymbolOp

structure TableDelta (P I H E X : Type) [LinearOrder P] [LinearOrder I] where
  tableSchema : ℕ
  targetGeneration : ℕ
  paths : List (PathOp P H E X)
  symbols : List (SymbolOp P I)
  pathsOrdered : paths.Pairwise fun first second => first.path < second.path
  symbolsOrdered : symbols.Pairwise fun first second => first.sortKey < second.sortKey
  canonical : ∀ operation ∈ symbols, operation.Canonical

variable {P I H E X : Type} [LinearOrder P] [LinearOrder I]

namespace StoredPath

def blank (path : P) : StoredPath P H E X := ⟨path, none, [], none⟩

variable (entry : StoredPath P H E X)

def isEmpty : Bool :=
  entry.source.isNone && entry.entities.isEmpty && entry.file.isNone

def apply (operation : PathOp P H E X) : Option (StoredPath P H E X) :=
  let source := match operation.source with
    | .unchanged => entry.source
    | .replace sha256 => some sha256
    | .remove => none
  let entities := match operation.entities with
    | .unchanged => entry.entities
    | .replace entities => entities
    | .remove => []
  let file := match operation.file with
    | .unchanged => entry.file
    | .replace file => some file
    | .remove => none
  let next : StoredPath P H E X := ⟨entry.path, source, entities, file⟩
  if next.isEmpty then none else some next

def sources : ℕ := entry.source.isSome.toNat

def entityRows : ℕ := entry.entities.length

def files : ℕ := entry.file.isSome.toNat

end StoredPath

namespace StoredSymbol

def replaceReferencePath (symbol : StoredSymbol P I) (path : P) (references : List (Location P)) :
    StoredSymbol P I :=
  let oldLen := match symbol.references.get ReferenceRun.path path with
    | some run => run.locations.length
    | none => 0
  let replacement := if references.isEmpty then none else some ⟨path, references⟩
  { symbol with
    references := symbol.references.updated ReferenceRun.path path replacement
    referenceCount := symbol.referenceCount - oldLen + references.length }

end StoredSymbol

/-- The appliers count with a difference of what an entry held before and holds now. -/
def recount (count : ℕ) (rows : StoredPath P H E X → ℕ)
    (existing replacement : Option (StoredPath P H E X)) : ℕ :=
  count - existing.elim 0 rows + replacement.elim 0 rows

def linearRebuildMinOperations : ℕ := 32

structure PathIndex (P H E X : Type) where
  paths : PackedIndex (StoredPath P H E X)
  sourceCount : ℕ
  entityCount : ℕ
  fileCount : ℕ

namespace PathIndex

variable (index : PathIndex P H E X)

def applyOperation (operation : PathOp P H E X) : PathIndex P H E X :=
  let existing := index.paths.get StoredPath.path operation.path
  let replacement := (existing.getD (.blank operation.path)).apply operation
  { paths := index.paths.updated StoredPath.path operation.path replacement
    sourceCount := recount index.sourceCount StoredPath.sources existing replacement
    entityCount := recount index.entityCount StoredPath.entityRows existing replacement
    fileCount := recount index.fileCount StoredPath.files existing replacement }

def applySparse (operations : List (PathOp P H E X)) : PathIndex P H E X :=
  operations.foldl applyOperation index

def linearEntry : Rows.Aligned (StoredPath P H E X) (PathOp P H E X) → Option (StoredPath P H E X)
  | .left entry => some entry
  | .right operation => (StoredPath.blank operation.path).apply operation
  | .both entry operation => entry.apply operation

def applyLinear (paths : PackedIndex (StoredPath P H E X)) (operations : List (PathOp P H E X)) :
    PathIndex P H E X :=
  let walked := Rows.align StoredPath.path PathOp.path paths.rows operations
  let next := PackedIndex.fromSorted (walked.filterMap linearEntry)
  { paths := next
    sourceCount := (next.rows.map StoredPath.sources).sum
    entityCount := (next.rows.map StoredPath.entityRows).sum
    fileCount := (next.rows.map StoredPath.files).sum }

def applyOperations (operations : List (PathOp P H E X)) : PathIndex P H E X :=
  if linearRebuildMinOperations ≤ operations.length then applyLinear index.paths operations
  else index.applySparse operations

end PathIndex

def applyOneSymbol (symbol : Option (StoredSymbol P I)) :
    SymbolOp P I → Option (Option (StoredSymbol P I))
  | .replace fact => some (some (StoredSymbol.fromFact fact))
  | .remove _ => some none
  | .replaceReferencePath _ path references =>
    symbol.map fun held => some (held.replaceReferencePath path references)

variable (symbols : PackedIndex (StoredSymbol P I)) (operations : List (SymbolOp P I))

def applySymbolOperationsSparse : Option (PackedIndex (StoredSymbol P I)) :=
  operations.foldlM (fun symbols operation => do
    let replacement ← applyOneSymbol (symbols.get StoredSymbol.id operation.id) operation
    some (symbols.updated StoredSymbol.id operation.id replacement)) symbols

structure SymbolRun (P I : Type) where
  id : I
  operations : List (SymbolOp P I)

def symbolRuns : List (SymbolRun P I) :=
  (Grouping.runs SymbolOp.id operations).filterMap fun run =>
    run.head?.map fun first => ⟨first.id, run⟩

def linearSymbol : Rows.Aligned (StoredSymbol P I) (SymbolRun P I) →
    Option (Option (StoredSymbol P I))
  | .left symbol => some (some symbol)
  | .right run => run.operations.foldlM applyOneSymbol none
  | .both symbol run => run.operations.foldlM applyOneSymbol (some symbol)

def applySymbolOperationsLinear : Option (PackedIndex (StoredSymbol P I)) := do
  let walked := Rows.align StoredSymbol.id SymbolRun.id symbols.rows (symbolRuns operations)
  let merged ← walked.mapM linearSymbol
  some (PackedIndex.fromSorted (merged.filterMap fun symbol => symbol))

def applySymbolOperations : Option (PackedIndex (StoredSymbol P I)) :=
  if linearRebuildMinOperations ≤ operations.length then
    applySymbolOperationsLinear symbols operations
  else applySymbolOperationsSparse symbols operations

inductive DeltaFault (I : Type)
  | missingSymbol (id : I)
  | aliasSymbol (id : I)

structure DeltaCheck (I : Type) where
  currentId : Option I
  present : Bool
  isAlias : Bool

namespace StoredTable

variable (table : StoredTable P I H E X)

def checkAt (check : DeltaCheck I) (id : I) : DeltaCheck I :=
  if check.currentId = some id then check
  else
    let retained := table.symbols.get StoredSymbol.id id
    ⟨some id, retained.isSome, retained.any fun symbol => symbol.aliasTarget.isSome⟩

def checkOperation (check : DeltaCheck I) : SymbolOp P I → Except (DeltaFault I) (DeltaCheck I)
  | .replace symbol => .ok { check with present := true, isAlias := symbol.aliasTarget.isSome }
  | .remove _ => .ok { check with present := false, isAlias := false }
  | .replaceReferencePath id _ _ =>
    if !check.present then .error (.missingSymbol id)
    else if check.isAlias then .error (.aliasSymbol id)
    else .ok check

def checkOperations (table : StoredTable P I H E X) :
    DeltaCheck I → List (SymbolOp P I) → Except (DeltaFault I) Unit
  | _, [] => .ok ()
  | check, operation :: later =>
    (checkOperation (table.checkAt check operation.id) operation).bind fun next =>
      table.checkOperations next later

def validateDelta (delta : TableDelta P I H E X) : Except (DeltaFault I) Unit :=
  table.checkOperations ⟨none, false, false⟩ delta.symbols

def applyDelta (delta : TableDelta P I H E X) : Option (StoredTable P I H E X) :=
  let index := PathIndex.applyOperations
    ⟨table.paths, table.sourceCount, table.entityCount, table.fileCount⟩ delta.paths
  (applySymbolOperations table.symbols delta.symbols).map fun symbols =>
    { table with
      schema := delta.tableSchema
      generation := delta.targetGeneration
      paths := index.paths
      sourceCount := index.sourceCount
      entityCount := index.entityCount
      fileCount := index.fileCount
      symbols }

def source (path : P) : Option H :=
  (table.paths.get StoredPath.path path).bind StoredPath.source

def entitiesForPath (path : P) : List E :=
  match table.paths.get StoredPath.path path with
  | some entry => entry.entities
  | none => []

def file (path : P) : Option X :=
  (table.paths.get StoredPath.path path).bind StoredPath.file

end StoredTable

structure TableChanges (P I : Type) where
  unchanged : Bool
  full : Bool
  entityPaths : List P
  symbolIds : List I
  filePaths : List P

section

variable [DecidableEq E] [DecidableEq X] (table : StoredTable P I H E X)

def entitiesChanged (operation : PathOp P H E X) : Bool :=
  match operation.entities with
  | .unchanged => false
  | .replace entities => decide (table.entitiesForPath operation.path ≠ entities)
  | .remove => !(table.entitiesForPath operation.path).isEmpty

def fileChanged (operation : PathOp P H E X) : Bool :=
  match operation.file with
  | .unchanged => false
  | .replace file => decide (table.file operation.path ≠ some file)
  | .remove => (table.file operation.path).isSome

def tableChangesAgainst (delta : TableDelta P I H E X) : TableChanges P I :=
  let entityPaths := (delta.paths.filter (entitiesChanged table)).map PathOp.path
  let filePaths := (delta.paths.filter (fileChanged table)).map PathOp.path
  let symbolIds := (delta.symbols.map SymbolOp.id).destutter (· ≠ ·)
  { unchanged := entityPaths.isEmpty && symbolIds.isEmpty && filePaths.isEmpty
    full := false
    entityPaths
    symbolIds
    filePaths }

end

end SolidChecker.Retained
