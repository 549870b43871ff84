/- source: typefacts/src/retained_table.rs, session.rs -/

import SolidChecker.Retained.DeltaApply

namespace SolidChecker.Retained

open Foundation List

variable {P I H E X : Type} [LinearOrder P] [LinearOrder I]

section

private def presentAfter (present : Bool) : SymbolOp P I → Option Bool
  | .replace _ => some true
  | .remove _ => some false
  | .replaceReferencePath _ _ _ => if present then some true else none

omit [LinearOrder I] in
private theorem applyOneSymbol_present (symbol : Option (StoredSymbol P I))
    (operation : SymbolOp P I) : (applyOneSymbol symbol operation).map Option.isSome =
      presentAfter symbol.isSome operation := by
  cases operation with
  | replace fact => rfl
  | remove id => rfl
  | replaceReferencePath id path references =>
    cases symbol with
    | none => rfl
    | some held => rfl

variable {operations : List (SymbolOp P I)}

omit [LinearOrder I] in
private theorem possible_of_present {present : Bool}
    (checked : ∃ left, operations.foldlM presentAfter present = some left)
    {symbol : Option (StoredSymbol P I)} (same : symbol.isSome = present) :
    ∃ left, operations.foldlM applyOneSymbol symbol = some left := by
  induction operations generalizing present symbol with
  | nil => exact ⟨symbol, rfl⟩
  | cons operation later ih =>
    obtain ⟨left, checked⟩ := checked
    rw [foldlM_cons] at checked
    obtain ⟨between, first, rest⟩ := Option.bind_eq_some_iff.mp checked
    rw [← same, ← applyOneSymbol_present] at first
    obtain ⟨next, applied, isPresent⟩ := Option.map_eq_some_iff.mp first
    rw [foldlM_cons, applied]
    exact ih ⟨left, rest⟩ isPresent

variable {table : StoredTable P I H E X}

private def presentAt (table : StoredTable P I H E X) (check : DeltaCheck I) (id : I) : Bool :=
  (table.checkAt check id).present

omit [LinearOrder P] [LinearOrder I] in
private theorem checkOperation_present {check next : DeltaCheck I} {operation : SymbolOp P I}
    (checked : StoredTable.checkOperation check operation = .ok next) :
    next.currentId = check.currentId ∧
      presentAfter check.present operation = some next.present := by
  cases operation with
  | replace symbol =>
    cases checked
    exact ⟨rfl, rfl⟩
  | remove id =>
    cases checked
    exact ⟨rfl, rfl⟩
  | replaceReferencePath id path references =>
    simp only [StoredTable.checkOperation] at checked
    split at checked
    · exact nomatch checked
    split at checked
    · exact nomatch checked
    · rename_i there _
      cases checked
      rw [Bool.not_eq_true', Bool.not_eq_false] at there
      exact ⟨rfl, by rw [presentAfter, there]; rfl⟩

omit [LinearOrder P] in
private theorem checkAt_current (check : DeltaCheck I) (id : I) :
    (table.checkAt check id).currentId = some id := by
  rw [StoredTable.checkAt]
  split
  · assumption
  · rfl

omit [LinearOrder P] in
private theorem checkOperations_present {check : DeltaCheck I}
    (ordered : operations.Pairwise fun first second => first.id ≤ second.id)
    (reached : ∀ current ∈ check.currentId, ∀ operation ∈ operations, current ≤ operation.id)
    (checked : table.checkOperations check operations = .ok ()) (id : I) :
    ∃ left, (operationsOn operations id).foldlM presentAfter (presentAt table check id) =
      some left := by
  induction operations generalizing check with
  | nil => exact ⟨_, rfl⟩
  | cons operation later ih =>
    obtain ⟨above, laterOrdered⟩ := pairwise_cons.mp ordered
    rw [StoredTable.checkOperations] at checked
    cases first : StoredTable.checkOperation (table.checkAt check operation.id) operation with
    | error fault =>
      rw [first] at checked
      exact nomatch checked
    | ok next =>
      rw [first] at checked
      obtain ⟨current, present⟩ := checkOperation_present first
      rw [checkAt_current] at current
      have rest := ih laterOrdered (fun other isCurrent => by
        cases current.symm.trans isCurrent
        exact above) checked
      by_cases here : operation.id = id
      · subst here
        have after : presentAt table next operation.id = next.present := by
          rw [presentAt, StoredTable.checkAt, if_pos current]
        rw [after] at rest
        obtain ⟨left, folded⟩ := rest
        refine ⟨left, ?_⟩
        rw [show operationsOn (operation :: later) operation.id =
          operation :: operationsOn later operation.id from
            filter_cons_of_pos (decide_eq_true rfl), foldlM_cons]
        rw [show presentAt table check operation.id =
          (table.checkAt check operation.id).present from rfl, present]
        exact folded
      · rw [show operationsOn (operation :: later) id = operationsOn later id from
          filter_cons_of_neg (by simpa only [decide_eq_true_eq] using here)]
        by_cases behind : check.currentId = some id
        -- The check has left this id behind: the later operations have larger ids.
        · have below : id < operation.id := lt_of_le_of_ne
            (reached id behind operation mem_cons_self) (Ne.symm here)
          have none : operationsOn later id = [] := by
            refine filter_eq_nil_iff.mpr fun other member => ?_
            rw [decide_eq_true_eq]
            exact ne_of_gt (below.trans_le (above other member))
          rw [none]
          exact ⟨_, rfl⟩
        · have ahead : next.currentId ≠ some id := by
            rw [current]
            exact fun same => here (Option.some.inj same)
          have same : presentAt table next id = presentAt table check id := by
            rw [presentAt, presentAt, StoredTable.checkAt, StoredTable.checkAt, if_neg ahead,
              if_neg behind]
          rwa [same] at rest

end

section

def SlotOp.onSlot {T : Type} (slot : SlotOp T) (old : Option T) : Option T :=
  match slot with
  | .unchanged => old
  | .replace value => some value
  | .remove => none

def SlotOp.onRows {T : Type} (slot : SlotOp (List T)) (old : List T) : List T :=
  match slot with
  | .unchanged => old
  | .replace rows => rows
  | .remove => []

def TableDelta.operationAt (delta : TableDelta P I H E X) (path : P) : PathOp P H E X :=
  (delta.paths.find? fun operation => decide (operation.path = path)).getD
    ⟨path, .unchanged, .unchanged, .unchanged⟩

structure StoredTable.Valid (table : StoredTable P I H E X) : Prop where
  paths : PathIndex.Valid ⟨table.paths, table.sourceCount, table.entityCount, table.fileCount⟩
  symbols : SymbolsValid table.symbols

private theorem StoredTable.Valid.retains {table : StoredTable P I H E X} (valid : table.Valid) :
    table.Retains :=
  ⟨valid.symbols.index, fun symbol member => (valid.symbols.stored symbol member).settled⟩

private def entitiesOf : Option (StoredPath P H E X) → List E
  | some entry => entry.entities
  | none => []

omit [LinearOrder P] in
private theorem apply_slots (entry : StoredPath P H E X) (operation : PathOp P H E X) :
    (entry.apply operation).bind StoredPath.source = operation.source.onSlot entry.source ∧
      entitiesOf (entry.apply operation) = operation.entities.onRows entry.entities ∧
      (entry.apply operation).bind StoredPath.file = operation.file.onSlot entry.file := by
  have applied : entry.apply operation =
      let next : StoredPath P H E X := ⟨entry.path, operation.source.onSlot entry.source,
        operation.entities.onRows entry.entities, operation.file.onSlot entry.file⟩
      if next.isEmpty then none else some next := rfl
  rw [applied]
  dsimp only
  split
  · rename_i empty
    simp only [StoredPath.isEmpty, Bool.and_eq_true, Option.isNone_iff_eq_none,
      List.isEmpty_iff] at empty
    obtain ⟨⟨noSource, noEntity⟩, noFile⟩ := empty
    rw [noSource, noEntity, noFile]
    exact ⟨rfl, rfl, rfl⟩
  · exact ⟨rfl, rfl, rfl⟩

omit [LinearOrder P] in
private theorem result_slots (entry : Option (StoredPath P H E X)) (operation : PathOp P H E X) :
    (operation.result entry).bind StoredPath.source =
        operation.source.onSlot (entry.bind StoredPath.source) ∧
      entitiesOf (operation.result entry) = operation.entities.onRows (entitiesOf entry) ∧
      (operation.result entry).bind StoredPath.file =
        operation.file.onSlot (entry.bind StoredPath.file) := by
  cases entry with
  | none => exact apply_slots (.blank operation.path) operation
  | some entry => exact apply_slots entry operation

private theorem follows_slots {index next : PathIndex P H E X} {delta : TableDelta P I H E X}
    (follows : index.Follows delta.paths next) (path : P) :
    let before := index.paths.get StoredPath.path path
    let after := next.paths.get StoredPath.path path
    after.bind StoredPath.source =
        (delta.operationAt path).source.onSlot (before.bind StoredPath.source) ∧
      entitiesOf after = (delta.operationAt path).entities.onRows (entitiesOf before) ∧
      after.bind StoredPath.file =
        (delta.operationAt path).file.onSlot (before.bind StoredPath.file) := by
  rw [follows path, TableDelta.operationAt]
  cases delta.paths.find? fun operation => decide (operation.path = path) with
  | none => exact ⟨rfl, rfl, rfl⟩
  | some operation => exact result_slots _ operation

section

variable {delta : TableDelta P I H E X}

private theorem mem_changed_iff (delta : TableDelta P I H E X) (changed : PathOp P H E X → Bool) (path : P)
    (quiet : changed ⟨path, .unchanged, .unchanged, .unchanged⟩ = false) :
    path ∈ (delta.paths.filter changed).map PathOp.path ↔ changed (delta.operationAt path) := by
  let edits : Rows PathOp.path := ⟨delta.paths, delta.pathsOrdered⟩
  have found : ∀ operation, edits.get path = some operation ↔
      operation ∈ delta.paths ∧ operation.path = path := edits.get_eq_some_iff path
  have at_ : delta.operationAt path = (edits.get path).getD
      ⟨path, .unchanged, .unchanged, .unchanged⟩ := rfl
  rw [at_, mem_map]
  constructor
  · rintro ⟨operation, member, named⟩
    obtain ⟨held, isChanged⟩ := mem_filter.mp member
    rw [(found operation).mpr ⟨held, named⟩]
    exact isChanged
  · intro isChanged
    cases here : edits.get path with
    | none =>
      rw [here, Option.getD_none, quiet] at isChanged
      exact nomatch isChanged
    | some operation =>
      rw [here, Option.getD_some] at isChanged
      obtain ⟨held, named⟩ := (found operation).mp here
      exact ⟨operation, mem_filter.mpr ⟨held, isChanged⟩, named⟩

private theorem operationAt_path (path : P) : (delta.operationAt path).path = path := by
  rw [TableDelta.operationAt]
  cases found : delta.paths.find? fun operation => decide (operation.path = path) with
  | none => rfl
  | some operation =>
    have named := find?_some found
    rw [decide_eq_true_eq] at named
    exact named

private theorem changed_ordered (changed : PathOp P H E X → Bool) :
    ((delta.paths.filter changed).map PathOp.path).Pairwise (· < ·) :=
  pairwise_map.mpr (delta.pathsOrdered.filter _)

variable [DecidableEq E] [DecidableEq X] (table : StoredTable P I H E X)

omit [LinearOrder I] [DecidableEq X] in
private theorem entitiesChanged_iff (operation : PathOp P H E X) : entitiesChanged table operation ↔
      operation.entities.onRows (table.entitiesForPath operation.path) ≠
        table.entitiesForPath operation.path := by
  rw [entitiesChanged]
  cases operation.entities with
  | unchanged => simp only [SlotOp.onRows, ne_eq, not_true_eq_false, Bool.false_eq_true]
  | replace rows =>
    rw [decide_eq_true_eq]
    exact ne_comm
  | remove =>
    simp only [SlotOp.onRows, Bool.not_eq_true', isEmpty_eq_false_iff]
    exact ne_comm

omit [LinearOrder I] [DecidableEq E] in
private theorem fileChanged_iff (operation : PathOp P H E X) : fileChanged table operation ↔
      operation.file.onSlot (table.file operation.path) ≠ table.file operation.path := by
  rw [fileChanged]
  cases operation.file with
  | unchanged => simp only [SlotOp.onSlot, ne_eq, not_true_eq_false, Bool.false_eq_true]
  | replace file =>
    rw [decide_eq_true_eq]
    exact ne_comm
  | remove =>
    simp only [SlotOp.onSlot, Option.isSome_iff_ne_none]
    exact ne_comm

end

variable [DecidableEq E] [DecidableEq X]

private theorem id_le_of_lt {first second : SymbolOp P I} (below : first.sortKey < second.sortKey) :
    first.id ≤ second.id := by
  have key : ∀ operation : SymbolOp P I, (ofLex operation.sortKey).1 = operation.id := by
    intro operation
    cases operation <;> rfl
  rw [← key first, ← key second]
  exact Prod.Lex.monotone_fst _ _ below.le

/-- For every retained table and every delta it accepts: the delta is applied, each path and id has
what the delta replaces, removes or leaves, the table stays valid, and the entity and file paths
told as changed are, in order, exactly those whose rows differ. -/
theorem accepted_delta_is_pointwise {table : StoredTable P I H E X} (valid : table.Valid)
    {delta : TableDelta P I H E X} (accepted : table.validateDelta delta = .ok ()) :
    ∃ next, table.applyDelta delta = some next ∧ next.Valid ∧ next.Retains ∧
      (next.schema, next.generation, next.projectId, next.strictNullChecks) =
        (delta.tableSchema, delta.targetGeneration, table.projectId, table.strictNullChecks) ∧
      (∀ path, next.source path = (delta.operationAt path).source.onSlot (table.source path) ∧
        next.entitiesForPath path =
          (delta.operationAt path).entities.onRows (table.entitiesForPath path) ∧
        next.file path = (delta.operationAt path).file.onSlot (table.file path)) ∧
      (∀ id, next.symbolFact id =
        (operationsOn delta.symbols id).foldl SymbolOp.onFact (table.symbolFact id)) ∧
      (tableChangesAgainst table delta).entityPaths.Pairwise (· < ·) ∧
      (tableChangesAgainst table delta).filePaths.Pairwise (· < ·) ∧
      (∀ path, path ∈ (tableChangesAgainst table delta).entityPaths ↔
        next.entitiesForPath path ≠ table.entitiesForPath path) ∧
      ∀ path, path ∈ (tableChangesAgainst table delta).filePaths ↔
        next.file path ≠ table.file path := by
  have ordered : delta.symbols.Pairwise fun first second => first.id ≤ second.id :=
    delta.symbolsOrdered.imp fun below => id_le_of_lt below
  obtain ⟨edited, follows⟩ := PathIndex.applyOperations_spec valid.paths delta.pathsOrdered
  have start : ∀ current ∈ (none : Option I), ∀ operation ∈ delta.symbols, current ≤ operation.id :=
    fun current absent => nomatch absent
  obtain ⟨symbols, applied, symbolsValid, each⟩ :=
    applySymbolOperations_spec ordered valid.symbols delta.canonical fun id =>
      possible_of_present (checkOperations_present ordered start accepted id) rfl
  let index := PathIndex.applyOperations
    ⟨table.paths, table.sourceCount, table.entityCount, table.fileCount⟩ delta.paths
  let next : StoredTable P I H E X :=
    { table with
      schema := delta.tableSchema
      generation := delta.targetGeneration
      paths := index.paths
      sourceCount := index.sourceCount
      entityCount := index.entityCount
      fileCount := index.fileCount
      symbols }
  have slots : ∀ path, next.source path =
        (delta.operationAt path).source.onSlot (table.source path) ∧
      next.entitiesForPath path =
        (delta.operationAt path).entities.onRows (table.entitiesForPath path) ∧
      next.file path = (delta.operationAt path).file.onSlot (table.file path) :=
    follows_slots follows
  have made : table.applyDelta delta = some next := by
    rw [StoredTable.applyDelta, applied]
    rfl
  have stays : next.Valid := ⟨edited, symbolsValid⟩
  refine ⟨next, made, stays, stays.retains, rfl, slots, ?_, changed_ordered _, changed_ordered _,
    ?_, ?_⟩
  · intro id
    obtain ⟨heldValid, heldPlaced⟩ := valid.symbols.get_valid id
    exact (foldlM_applyOneSymbol
      (fun operation member => delta.canonical operation (mem_filter.mp member).1)
      (fun operation member => of_decide_eq_true (mem_filter.mp member).2)
      heldValid heldPlaced (each id)).2.2
  · intro path
    have told := mem_changed_iff delta (entitiesChanged table) path rfl
    rw [entitiesChanged_iff, operationAt_path] at told
    rw [(slots path).2.1]
    exact told
  · intro path
    have told := mem_changed_iff delta (fileChanged table) path rfl
    rw [fileChanged_iff, operationAt_path] at told
    rw [(slots path).2.2]
    exact told

def smallDelta : TableDelta ℕ ℕ Unit Unit Unit where
  tableSchema := 24
  targetGeneration := 2
  paths := [⟨1, .replace (), .replace [()], .replace ()⟩]
  symbols := [.replaceReferencePath 1 2 [⟨2, 0, 4⟩]]
  pathsOrdered := pairwise_singleton _ _
  symbolsOrdered := pairwise_singleton _ _
  canonical := by
    intro operation member
    obtain rfl := mem_singleton.mp member
    intro reference inside
    obtain rfl := mem_singleton.mp inside
    rfl

private theorem tableOf_valid : (StoredTable.tableOf [StoredTable.bareFact 1 none]).Valid := by
  have index : (StoredTable.tableOf [StoredTable.bareFact 1 none]).symbols.Valid StoredSymbol.id :=
    PackedIndex.fromSorted_valid (pairwise_singleton _ _)
  refine ⟨⟨⟨?_, ?_, .nil, rfl⟩, ?_, rfl, rfl, rfl⟩, index, ?_⟩
  · exact fun leaf absent => nomatch absent
  · exact fun leaf absent => nomatch absent
  · exact fun entry absent => nomatch absent
  · intro symbol member
    rw [show (StoredTable.tableOf [StoredTable.bareFact 1 none]).symbols.rows = _ from
      PackedIndex.rows_fromSorted _] at member
    obtain rfl := mem_singleton.mp member
    exact StoredSymbol.fromFact_valid List.Pairwise.nil

theorem accepted_delta_is_pointwise_small :
    let table := StoredTable.tableOf [StoredTable.bareFact 1 none]
    ∃ next, table.applyDelta smallDelta = some next ∧ next.Valid ∧
      (next.entitiesForPath 1 = [()] ∧ next.symbolFact 1 = some ⟨1, [⟨2, 0, 4⟩], none, []⟩) := by
  obtain ⟨next, applied, valid, -, -, slots, facts, -⟩ :=
    accepted_delta_is_pointwise tableOf_valid (rfl : _ = StoredTable.validateDelta _ smallDelta)
  refine ⟨next, applied, valid, (slots 1).2.1, ?_⟩
  rw [facts 1]
  rfl

end

end SolidChecker.Retained
