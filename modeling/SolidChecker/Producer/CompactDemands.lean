/- source: typefacts/src/v3.rs, typefacts/src/producer/compact.rs -/

import SolidChecker.Foundation.Codec
import SolidChecker.Foundation.Interning
import SolidChecker.Producer.Demands

namespace SolidChecker.Producer

open Foundation Foundation.Codec

structure DemandKinds where
  symbol : Bool
  references : Bool
  typeDescriptor : Bool
  resolvedCall : Bool
  structuralAccessor : Bool
  callability : Bool
  referenceSpace : Bool
  runtimeIdentity : Bool
  runtimeValueDomain : Bool
  callResultDomain : Bool
  constantValue : Bool
  arrayShape : Bool
  tupleShape : Bool
  libraryTypes : Bool
  primitiveValueDomain : Bool
  primitiveLiteralCandidates : Bool
  parameterObjectShape : Bool
  constructability : Bool
  declaredKeys : Bool
  writableOptionalProperty : Bool
  deriving DecidableEq

abbrev WireDemand := EntityDemand DemandKinds

def demandFlagAsync : ℕ := 4

def demandFields (demand : WireDemand) : List (Bool × ℕ) :=
  [(demand.kinds.symbol, 0), (demand.kinds.references, 1), (demand.kinds.typeDescriptor, 2),
    (demand.kinds.resolvedCall, 3), (demand.wantsAsync, demandFlagAsync),
    (demand.kinds.structuralAccessor, 5), (demand.kinds.callability, 6),
    (demand.kinds.referenceSpace, 7), (demand.kinds.runtimeIdentity, 8),
    (demand.kinds.runtimeValueDomain, 9), (demand.kinds.callResultDomain, 10),
    (demand.kinds.constantValue, 11), (demand.kinds.arrayShape, 12), (demand.kinds.tupleShape, 13),
    (demand.kinds.libraryTypes, 14), (demand.kinds.primitiveValueDomain, 15),
    (demand.kinds.primitiveLiteralCandidates, 17), (demand.kinds.parameterObjectShape, 18),
    (demand.kinds.constructability, 16), (demand.kinds.declaredKeys, 19),
    (demand.kinds.writableOptionalProperty, 20)]

section

structure Packing where
  strings : List Path
  groups : List (ℕ × Bytes)
  previousStart : ℕ

def Packing.openGroup (packing : Packing) (path : ℕ) (start : ℕ) : Packing :=
  match packing.groups with
  | [] => { packing with groups := [(path, [])], previousStart := 0 }
  | group :: groups =>
    if group.1 ≠ path ∨ start < packing.previousStart then
      { packing with groups := (path, []) :: group :: groups, previousStart := 0 }
    else packing

def Packing.append (packing : Packing) (bytes : Bytes) : Packing :=
  match packing.groups with
  | [] => packing
  | group :: groups => { packing with groups := (group.1, group.2 ++ bytes) :: groups }

def rowHead (previousStart : ℕ) (demand : WireDemand) : Bytes :=
  uvarint (2 * flags (demandFields demand) + if demand.queryLocation.isSome then 1 else 0) ++
    (uvarint (demand.location.startByte - previousStart) ++
      uvarint (demand.location.endByte - demand.location.startByte))

def queryBytes (path : ℕ) (query : Location) : Bytes :=
  uvarint path ++ (uvarint query.startByte ++ uvarint (query.endByte - query.startByte))

def Packing.push (packing : Packing) (demand : WireDemand) : Packing :=
  let (path, strings) := intern packing.strings demand.location.path
  let opened := Packing.openGroup { packing with strings } path demand.location.startByte
  let headed := { opened.append (rowHead opened.previousStart demand) with
    previousStart := demand.location.startByte }
  match demand.queryLocation with
  | none => headed
  | some query =>
    let (path, strings) := intern headed.strings query.path
    Packing.append { headed with strings } (queryBytes path query)

def compactDemands (demands : List WireDemand) : CompactDemands Bytes :=
  let packing := demands.foldl Packing.push ⟨[[]], [], 0⟩
  ⟨packing.groups.reverse, packing.strings⟩

end

section

def takeUvarint : Reader ℕ :=
  VarintFaults.read
    { exhausted := fun length => if 10 ≤ length then "overflowing compact demand varint"
        else "truncated compact demand varint"
      overflow := "overflowing compact demand varint"
      padded := none }

def lookup (strings : List Path) (index : ℕ) : Except String Path :=
  match strings[index]? with
  | some path => .ok path
  | none => .error ("compact string index " ++ toString index ++ " out of range (" ++
      toString strings.length ++ " strings)")

/-- Whether the row after its header has a query location, when every number of it parses. -/
def rowShape : Reader Bool := do
  let header ← takeUvarint
  let _ ← takeUvarint
  let _ ← takeUvarint
  if header % 2 = 1 then do
    let _ ← takeUvarint
    let _ ← takeUvarint
    let _ ← takeUvarint
    pure true
  else pure false

/-- The rows and the query locations of packed bytes; each row takes a byte at least, so the
length bounds the rows. -/
def shapeRows : ℕ → Bytes → Except String (ℕ × ℕ)
  | _, [] => .ok (0, 0)
  | 0, _ :: _ => .ok (0, 0)
  | bound + 1, packed => do
      let (query, rest) ← rowShape.run packed
      let (demands, queries) ← shapeRows bound rest
      pure (demands + 1, queries + if query then 1 else 0)

def compactDemandShape : List (ℕ × Bytes) → Except String (ℕ × ℕ)
  | [] => .ok (0, 0)
  | group :: groups => do
      let (demands, queries) ← shapeRows group.2.length group.2
      let (laterDemands, laterQueries) ← compactDemandShape groups
      pure (demands + laterDemands, queries + laterQueries)

structure PackedRow where
  flags : ℕ
  start : ℕ
  length : ℕ
  query : Option (ℕ × ℕ × ℕ)

def packedQuery : Reader (ℕ × ℕ × ℕ) := do
  let path ← takeUvarint
  let start ← takeUvarint
  let length ← takeUvarint
  refuseIf (2 ^ 64 ≤ start + length) "compact demand query location overflow"
  pure (path, start, length)

def packedRow (previousStart : ℕ) : Reader PackedRow := do
  let header ← takeUvarint
  let startDelta ← takeUvarint
  let length ← takeUvarint
  let start := previousStart + startDelta
  refuseIf (2 ^ 64 ≤ start) "compact demand location overflow"
  refuseIf (2 ^ 64 ≤ start + length) "compact demand location overflow"
  if header % 2 = 1 then do
    let query ← packedQuery
    pure ⟨header / 2, start, length, some query⟩
  else pure ⟨header / 2, start, length, none⟩

def visitRows {β : Type} (visit : PackedRow → Except String (List β)) :
    ℕ → ℕ → Bytes → Except String (List β)
  | _, _, [] => .ok []
  | 0, _, _ :: _ => .ok []
  | bound + 1, previousStart, packed => do
      let (row, rest) ← (packedRow previousStart).run packed
      let visited ← visit row
      let later ← visitRows visit bound row.start rest
      pure (visited ++ later)

def visitGroup {β : Type} (strings : List Path) (group : ℕ × Bytes)
    (visit : PackedRow → Except String (List β)) : Except String (List β) := do
  let _ ← lookup strings group.1
  visitRows visit group.2.length 0 group.2

def plainDemand (location : Location) (flags : ℕ) : WireDemand where
  location
  queryLocation := none
  wantsAsync := flags.testBit demandFlagAsync
  kinds :=
    { symbol := flags.testBit 0
      references := flags.testBit 1
      typeDescriptor := flags.testBit 2
      resolvedCall := flags.testBit 3
      structuralAccessor := flags.testBit 5
      callability := flags.testBit 6
      referenceSpace := flags.testBit 7
      runtimeIdentity := flags.testBit 8
      runtimeValueDomain := flags.testBit 9
      callResultDomain := flags.testBit 10
      constantValue := flags.testBit 11
      arrayShape := flags.testBit 12
      tupleShape := flags.testBit 13
      libraryTypes := flags.testBit 14
      primitiveValueDomain := flags.testBit 15
      primitiveLiteralCandidates := flags.testBit 17
      parameterObjectShape := flags.testBit 18
      constructability := flags.testBit 16
      declaredKeys := flags.testBit 19
      writableOptionalProperty := flags.testBit 20 }

def rowToDemand (path : Path) (strings : List Path) (row : PackedRow) : Except String WireDemand :=
  let demand := plainDemand ⟨path, row.start, row.start + row.length⟩ row.flags
  match row.query with
  | none => .ok demand
  | some (queryPath, start, length) => do
      let path ← lookup strings queryPath
      pure { demand with queryLocation := some ⟨path, start, start + length⟩ }

def expandCompactGroup (group : ℕ × Bytes) (strings : List Path) :
    Except String (List WireDemand) := do
  let _ ← compactDemandShape [group]
  let path ← lookup strings group.1
  visitGroup strings group fun row => (rowToDemand path strings row).map fun demand => [demand]

def compactDemandsWithFlag (group : ℕ × Bytes) (strings : List Path) (required : ℕ) :
    Except String (List WireDemand) := do
  let path ← lookup strings group.1
  visitGroup strings group fun row =>
    if row.flags.testBit required then (rowToDemand path strings row).map fun demand => [demand]
    else .ok []

def expandGroups (strings : List Path) : List (ℕ × Bytes) → Except String (List WireDemand)
  | [] => .ok []
  | group :: groups => do
      let path ← lookup strings group.1
      let demands ← visitGroup strings group fun row =>
        (rowToDemand path strings row).map fun demand => [demand]
      let later ← expandGroups strings groups
      pure (demands ++ later)

def expandCompactDemands (compact : CompactDemands Bytes) : Except String (List WireDemand) := do
  let _ ← compactDemandShape compact.groups
  expandGroups compact.strings compact.groups

def compactCodec : Codec DemandKinds Bytes where
  shape := fun packed => (compactDemandShape [(0, packed)]).map fun _ => ()
  expand := fun strings group => expandCompactGroup group strings
  asyncRows := fun strings group => compactDemandsWithFlag group strings demandFlagAsync

end

end SolidChecker.Producer
