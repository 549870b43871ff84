/- source: typefacts/src/retained_table.rs -/

import SolidChecker.Retained.Delta

namespace SolidChecker.Retained

open Foundation List

variable {P I H E X : Type}

section

def PathOp.result (entry : Option (StoredPath P H E X)) (operation : PathOp P H E X) :
    Option (StoredPath P H E X) :=
  (entry.getD (.blank operation.path)).apply operation

variable {operation : PathOp P H E X}

private theorem apply_spec {entry next : StoredPath P H E X}
    (applied : entry.apply operation = some next) :
    next.path = entry.path ∧ next.isEmpty = false := by
  simp only [StoredPath.apply] at applied
  obtain ⟨filled, same⟩ := Option.ite_none_left_eq_some.mp applied
  rw [← Option.some.inj same]
  exact ⟨rfl, Bool.eq_false_iff.mpr filled⟩

variable [LinearOrder P]

namespace PathIndex

/-- An index whose leaves are as they should be, without empty entries, and whose counts are those
of its rows. -/
structure Valid (index : PathIndex P H E X) : Prop where
  paths : index.paths.Valid StoredPath.path
  filled : ∀ entry ∈ index.paths.rows, entry.isEmpty = false
  sources : index.sourceCount = (index.paths.rows.map StoredPath.sources).sum
  entities : index.entityCount = (index.paths.rows.map StoredPath.entityRows).sum
  files : index.fileCount = (index.paths.rows.map StoredPath.files).sum

/-- What stands at each path after the operations: the entry, or what its operation leaves. -/
def Follows (index : PathIndex P H E X) (operations : List (PathOp P H E X))
    (next : PathIndex P H E X) : Prop :=
  ∀ path, next.paths.get StoredPath.path path =
    match operations.find? fun operation => decide (operation.path = path) with
    | some operation => operation.result (index.paths.get StoredPath.path path)
    | none => index.paths.get StoredPath.path path

variable {index : PathIndex P H E X} (valid : index.Valid)

include valid

private theorem applyOperation_spec (operation : PathOp P H E X) :
    (index.applyOperation operation).Valid ∧
      ∀ path, (index.applyOperation operation).paths.get StoredPath.path path =
        if path = operation.path then operation.result (index.paths.get StoredPath.path path)
        else index.paths.get StoredPath.path path := by
  have keyed : ∀ next ∈ operation.result (index.paths.get StoredPath.path operation.path),
      next.path = operation.path := by
    intro next left
    rw [(apply_spec left).1]
    cases held : index.paths.get StoredPath.path operation.path with
    | none => rfl
    | some entry => exact (PackedIndex.key_of_get valid.paths held).2
  have recounted : ∀ count term,
      count = (index.paths.rows.map term).sum →
      recount count term (index.paths.get StoredPath.path operation.path)
        (operation.result (index.paths.get StoredPath.path operation.path)) =
          ((index.applyOperation operation).paths.rows.map term).sum := by
    rintro _ term rfl
    exact (PackedIndex.sum_updated valid.paths keyed term).symm
  refine ⟨⟨PackedIndex.updated_valid valid.paths keyed, fun entry member => ?_,
    recounted _ _ valid.sources, recounted _ _ valid.entities, recounted _ _ valid.files⟩,
    fun path => (PackedIndex.get_updated valid.paths keyed path).trans ?_⟩
  · rcases PackedIndex.mem_updated valid.paths keyed member with new | old
    · exact (apply_spec new).2
    · exact valid.filled entry old
  · split
    · rename_i same
      rw [same]
    · rfl

variable {operations : List (PathOp P H E X)}
  (ordered : operations.Pairwise fun first second => first.path < second.path)
include ordered

private theorem applySparse_spec :
    (index.applySparse operations).Valid ∧ index.Follows operations (index.applySparse operations) := by
  induction operations generalizing index with
  | nil => exact ⟨valid, fun path => rfl⟩
  | cons operation later ih =>
    obtain ⟨above, laterOrdered⟩ := pairwise_cons.mp ordered
    obtain ⟨stepValid, stepGet⟩ := applyOperation_spec valid operation
    obtain ⟨runValid, runGet⟩ := ih stepValid laterOrdered
    refine ⟨runValid, fun path => ?_⟩
    rw [show index.applySparse (operation :: later) =
      (index.applyOperation operation).applySparse later from rfl, runGet path, stepGet path]
    by_cases here : operation.path = path
    · have gone : (later.find? fun other => other.path = path) = none := by
        refine find?_eq_none.mpr fun other member => ?_
        simpa only [decide_eq_true_eq, ← here] using ne_of_gt (above other member)
      rw [gone, find?_cons_of_pos (by simpa only [decide_eq_true_eq] using here), if_pos here.symm]
    · rw [find?_cons_of_neg (by simpa only [decide_eq_true_eq] using here), if_neg (Ne.symm here)]

private theorem applyLinear_spec : (applyLinear index.paths operations).Valid ∧
      index.Follows operations (applyLinear index.paths operations) := by
  let held := valid.paths.toRows
  let edits : Rows PathOp.path := ⟨operations, ordered⟩
  have keyed : ∀ path entry, held.both edits path = some entry → ∀ next,
      linearEntry entry = some next → next.path = path := by
    intro path entry found next left
    have placed := Rows.place_of_both found
    cases entry with
    | left entry =>
      cases left
      exact placed
    | right operation => exact (apply_spec left).1.trans placed
    | both entry operation => exact (apply_spec left).1.trans placed
  let merged := Rows.merge held edits linearEntry keyed
  refine ⟨⟨PackedIndex.fromSorted_valid merged.ordered, ?_, rfl, rfl, rfl⟩, fun path => ?_⟩
  · intro entry member
    rw [show (applyLinear index.paths operations).paths.rows = merged.list from
      PackedIndex.rows_fromSorted _, Rows.mem_iff, Rows.get_merge] at member
    obtain ⟨aligned, found, left⟩ := Option.bind_eq_some_iff.mp member
    cases aligned with
    | left entry =>
      cases left
      exact valid.filled entry ((Rows.get_eq_some_iff _ _ _).mp (Rows.gets_of_both found).1).1
    | right operation => exact (apply_spec left).2
    | both entry operation => exact (apply_spec left).2
  · rw [show (applyLinear index.paths operations).paths.get StoredPath.path path = merged.get path
      from PackedIndex.get_fromSorted merged path, Rows.get_merge, Rows.both,
      PackedIndex.get_eq valid.paths, show edits.get path =
        operations.find? fun operation => decide (operation.path = path) from rfl]
    cases found : operations.find? fun operation => decide (operation.path = path) with
    | none =>
      cases valid.paths.toRows.get path with
      | none => rfl
      | some entry => rfl
    | some operation =>
      cases valid.paths.toRows.get path with
      | none => rfl
      | some entry => rfl

theorem applyOperations_spec : (index.applyOperations operations).Valid ∧
      index.Follows operations (index.applyOperations operations) := by
  rw [applyOperations]
  split
  · exact applyLinear_spec valid ordered
  · exact applySparse_spec valid ordered

end PathIndex

end

section

variable [LinearOrder P]

namespace StoredSymbol

structure Valid (symbol : StoredSymbol P I) : Prop where
  references : symbol.references.Valid ReferenceRun.path
  filled : ∀ run ∈ symbol.references.rows, run.locations ≠ []
  located : ∀ run ∈ symbol.references.rows, ∀ location ∈ run.locations, location.path = run.path
  counted : symbol.referenceCount = (symbol.references.rows.map fun run => run.locations.length).sum

theorem Valid.settled {symbol : StoredSymbol P I} (valid : symbol.Valid) : symbol.Settled := by
  have split : Grouping.runs Location.path (symbol.references.rows.map ReferenceRun.locations).flatten =
      symbol.references.rows.map ReferenceRun.locations := by
    refine splitBy_flatten ?_ ?_ (pairwise_map.mpr ?_).isChain
    · intro none
      obtain ⟨run, member, same⟩ := mem_map.mp none
      exact valid.filled run member same
    · intro locations listed
      obtain ⟨run, member, rfl⟩ := mem_map.mp listed
      refine (pairwise_of_forall_mem_list fun first here second there => ?_).isChain
      exact decide_eq_true ((valid.located run member first here).trans
        (valid.located run member second there).symm)
    · refine valid.references.ordered.imp_of_mem fun {earlier later} here there below => ?_
      refine ⟨valid.filled earlier here, valid.filled later there, decide_eq_false ?_⟩
      rw [valid.located earlier here _ (getLast_mem _), valid.located later there _ (head_mem _)]
      exact below.ne
  have runs : referenceRuns symbol.toFact.references = symbol.references.rows := by
    have listed : symbol.toFact.references =
        (symbol.references.rows.map ReferenceRun.locations).flatten := rfl
    rw [referenceRuns, listed, split, filterMap_map]
    refine (filterMap_congr fun run member => ?_).trans filterMap_some
    obtain ⟨first, rest, same⟩ := exists_cons_of_ne_nil (valid.filled run member)
    have placed := valid.located run member first (same ▸ mem_cons_self)
    rw [Function.comp_apply, same, head?_cons, Option.map_some, placed, ← same]
  have counted : symbol.referenceCount = symbol.toFact.references.length := by
    rw [valid.counted, ← length_flatMap]
    rfl
  rw [Settled, content, content, counted]
  exact congrArg _ (runs.symm.trans (PackedIndex.rows_fromSorted _).symm)

private theorem referenceRuns_eq (references : List (Location P)) : referenceRuns references =
    ((Grouping.runs Location.path references).filterMap fun run =>
      run.head?.map fun first => (first.path, run)).map fun keyed => ⟨keyed.1, keyed.2⟩ :=
  Grouping.filterMap_runs Location.path (fun keyed => (⟨keyed.1, keyed.2⟩ : ReferenceRun P)) _

theorem fromFact_valid {fact : SymbolFact P I}
    (canonical : fact.references.Pairwise fun first second => first.path ≤ second.path) :
    (fromFact fact).Valid := by
  have rows : (fromFact fact).references.rows = referenceRuns fact.references :=
    PackedIndex.rows_fromSorted _
  have whole : ∀ run ∈ (fromFact fact).references.rows, run.locations ≠ [] ∧
      run.locations = fact.references.filter fun location => location.path = run.path := by
    intro run member
    rw [rows, referenceRuns_eq] at member
    obtain ⟨keyed, listed, rfl⟩ := mem_map.mp member
    exact (Grouping.mem_keyed_runs Location.path canonical keyed).mp listed
  refine ⟨PackedIndex.fromSorted_valid ?_, fun run member => (whole run member).1, ?_, ?_⟩
  · rw [referenceRuns_eq]
    exact pairwise_map.mpr (Grouping.keyed_runs_strict Location.path canonical)
  · intro run member location inRun
    rw [(whole run member).2] at inRun
    exact of_decide_eq_true (mem_filter.mp inRun).2
  · rw [rows, ← length_flatMap, referenceRuns_flatMap]
    rfl

def referencesWith (path : P) (references old : List (Location P)) : List (Location P) :=
  (old.filter fun location => decide (location.path < path)) ++
    (references ++ old.filter fun location => decide (path < location.path))

omit [LinearOrder P] in
private theorem filter_runs {runs : List (ReferenceRun P)} (keep : P → Bool)
    (located : ∀ run ∈ runs, ∀ location ∈ run.locations, location.path = run.path) :
    (runs.flatMap ReferenceRun.locations).filter (fun location => keep location.path) =
      (runs.filter fun run => keep run.path).flatMap ReferenceRun.locations := by
  induction runs with
  | nil => rfl
  | cons run runs ih =>
    have here := located run mem_cons_self
    rw [flatMap_cons, filter_append, filter_cons,
      ih fun other member => located other (mem_cons_of_mem _ member)]
    cases kept : keep run.path with
    | true =>
      rw [filter_eq_self.mpr fun location member => by rw [here location member, kept]]
      rfl
    | false =>
      rw [filter_eq_nil_iff.mpr fun location member => by simp [here location member, kept]]
      rfl

private theorem replaceReferencePath_spec {symbol : StoredSymbol P I} (valid : symbol.Valid) (path : P)
    {references : List (Location P)} (located : ∀ reference ∈ references, reference.path = path) :
    (symbol.replaceReferencePath path references).Valid ∧
      (symbol.replaceReferencePath path references).toFact = { symbol.toFact with
          references := referencesWith path references symbol.toFact.references } := by
  let replacement : Option (ReferenceRun P) :=
    if references.isEmpty then none else some ⟨path, references⟩
  have only : ∀ run ∈ replacement, run = ⟨path, references⟩ ∧ references ≠ [] := by
    intro run member
    obtain ⟨some, same⟩ := Option.ite_none_left_eq_some.mp member
    exact ⟨(Option.some.inj same).symm, by simpa only [List.isEmpty_iff] using some⟩
  have keyed : ∀ run ∈ replacement, run.path = path := fun run member => by
    rw [(only run member).1]
  have joined : replacement.toList.flatMap ReferenceRun.locations = references := by
    cases references with
    | nil => rfl
    | cons first later => simp [replacement]
  have total : replacement.elim 0 (fun run => run.locations.length) = references.length := by
    cases references with
    | nil => rfl
    | cons first later => rfl
  have held : ∀ run ∈ (symbol.references.updated ReferenceRun.path path replacement).rows,
      run.locations ≠ [] ∧ ∀ location ∈ run.locations, location.path = run.path := by
    intro run member
    rcases PackedIndex.mem_updated valid.references keyed member with new | old
    · obtain ⟨rfl, filled⟩ := only run new
      exact ⟨filled, located⟩
    · exact ⟨valid.filled run old, valid.located run old⟩
  refine ⟨⟨PackedIndex.updated_valid valid.references keyed, fun run member => (held run member).1,
    fun run member => (held run member).2, ?_⟩, ?_⟩
  · refine Eq.trans ?_ (PackedIndex.sum_updated valid.references keyed _).symm
    rw [total, ← valid.counted]
    simp only [replaceReferencePath]
    cases symbol.references.get ReferenceRun.path path with
    | none => rfl
    | some run => rfl
  · obtain ⟨before, after, parts, below, above⟩ := valid.references.toRows.split path
    have here : ∀ run ∈ (valid.references.toRows.get path).toList, run.path = path := by
      intro run member
      exact Rows.key_of_get (Option.mem_toList.mp member)
    have under : symbol.references.rows.filter (fun run => run.path < path) = before := by
      rw [show symbol.references.rows = _ from parts, filter_append, filter_append,
        filter_eq_self.mpr fun run member => decide_eq_true (below run member),
        filter_eq_nil_iff.mpr fun run member => by simp [here run member],
        filter_eq_nil_iff.mpr fun run member => by simp [(above run member).le],
        append_nil, append_nil]
    have beyond : symbol.references.rows.filter (fun run => path < run.path) = after := by
      rw [show symbol.references.rows = _ from parts, filter_append, filter_append,
        filter_eq_nil_iff.mpr fun run member => by simp [(below run member).le],
        filter_eq_nil_iff.mpr fun run member => by simp [here run member],
        filter_eq_self.mpr fun run member => decide_eq_true (above run member)]
      rfl
    simp only [toFact, replaceReferencePath]
    rw [PackedIndex.rows_updated valid.references keyed, Rows.put_list_split keyed below above parts,
      flatMap_append, flatMap_append, joined, referencesWith, filter_runs (fun other => other < path)
        valid.located, filter_runs (fun other => path < other) valid.located, under, beyond]

end StoredSymbol

def SymbolOp.onFact (fact : Option (SymbolFact P I)) : SymbolOp P I → Option (SymbolFact P I)
  | .replace symbol => some symbol
  | .remove _ => none
  | .replaceReferencePath _ path references => fact.map fun held =>
    { held with references := StoredSymbol.referencesWith path references held.references }

variable {symbol next : Option (StoredSymbol P I)}

private theorem applyOneSymbol_spec {operation : SymbolOp P I} (valid : ∀ held ∈ symbol, held.Valid)
    (placed : ∀ held ∈ symbol, held.id = operation.id) (canonical : operation.Canonical)
    (applied : applyOneSymbol symbol operation = some next) :
    (∀ held ∈ next, held.Valid) ∧ (∀ held ∈ next, held.id = operation.id) ∧
      next.map StoredSymbol.toFact = operation.onFact (symbol.map StoredSymbol.toFact) := by
  cases operation with
  | replace fact =>
    cases applied
    refine ⟨?_, ?_, congrArg some (StoredSymbol.toFact_fromFact fact)⟩
    · intro held member
      cases member
      exact StoredSymbol.fromFact_valid canonical
    · intro held member
      cases member
      rfl
  | remove id =>
    cases applied
    exact ⟨fun held member => (nomatch member), fun held member => (nomatch member), rfl⟩
  | replaceReferencePath id path references =>
    obtain ⟨old, rfl, rfl⟩ := Option.map_eq_some_iff.mp applied
    obtain ⟨kept, fact⟩ :=
      StoredSymbol.replaceReferencePath_spec (valid old rfl) path canonical
    refine ⟨?_, ?_, congrArg some fact⟩
    · intro held member
      cases member
      exact kept
    · intro held member
      cases member
      exact placed old rfl

variable {operations : List (SymbolOp P I)} {symbols : PackedIndex (StoredSymbol P I)}

theorem foldlM_applyOneSymbol {id : I} (canonical : ∀ operation ∈ operations, operation.Canonical)
    (named : ∀ operation ∈ operations, operation.id = id)
    (valid : ∀ held ∈ symbol, held.Valid) (placed : ∀ held ∈ symbol, held.id = id)
    (applied : operations.foldlM applyOneSymbol symbol = some next) :
    (∀ held ∈ next, held.Valid) ∧ (∀ held ∈ next, held.id = id) ∧ next.map StoredSymbol.toFact =
        operations.foldl SymbolOp.onFact (symbol.map StoredSymbol.toFact) := by
  induction operations generalizing symbol with
  | nil =>
    cases applied
    exact ⟨valid, placed, rfl⟩
  | cons operation later ih =>
    rw [foldlM_cons] at applied
    obtain ⟨between, first, rest⟩ := Option.bind_eq_some_iff.mp applied
    have here : operation.id = id := named operation mem_cons_self
    obtain ⟨betweenValid, betweenPlaced, fact⟩ := applyOneSymbol_spec valid
      (fun held member => (placed held member).trans here.symm)
      (canonical operation mem_cons_self) first
    rw [here] at betweenPlaced
    rw [foldl_cons, ← fact]
    exact ih (fun other member => canonical other (mem_cons_of_mem _ member))
      (fun other member => named other (mem_cons_of_mem _ member)) betweenValid betweenPlaced
      rest

variable [LinearOrder I]

def operationsOn (operations : List (SymbolOp P I)) (id : I) : List (SymbolOp P I) :=
  operations.filter fun operation => decide (operation.id = id)

structure SymbolsValid (symbols : PackedIndex (StoredSymbol P I)) : Prop where
  index : symbols.Valid StoredSymbol.id
  stored : ∀ symbol ∈ symbols.rows, symbol.Valid

/-- Where the operations on each id can be made, the index after them is valid, and each id has the
symbol that the operations on it leave. -/
def AppliesTo (symbols : PackedIndex (StoredSymbol P I)) (operations : List (SymbolOp P I))
    (applied : Option (PackedIndex (StoredSymbol P I))) : Prop :=
  (∀ id, ∃ left, (operationsOn operations id).foldlM applyOneSymbol
      (symbols.get StoredSymbol.id id) = some left) →
    ∃ next, applied = some next ∧ SymbolsValid next ∧
      ∀ id, (operationsOn operations id).foldlM applyOneSymbol (symbols.get StoredSymbol.id id) =
        some (next.get StoredSymbol.id id)

omit [LinearOrder P] in
private theorem symbolRuns_eq (operations : List (SymbolOp P I)) : symbolRuns operations =
    ((Grouping.runs SymbolOp.id operations).filterMap fun run =>
      run.head?.map fun first => (first.id, run)).map fun keyed => ⟨keyed.1, keyed.2⟩ :=
  Grouping.filterMap_runs SymbolOp.id (fun keyed => (⟨keyed.1, keyed.2⟩ : SymbolRun P I)) _

variable (ordered : operations.Pairwise fun first second => first.id ≤ second.id)

private def runRows : Rows (SymbolRun.id : SymbolRun P I → I) where
  list := symbolRuns operations
  ordered := by
    rw [symbolRuns_eq]
    exact pairwise_map.mpr (Grouping.keyed_runs_strict SymbolOp.id ordered)

omit [LinearOrder P] in
private theorem get_runRows (id : I) : operationsOn operations id =
      ((runRows ordered).get id).elim [] SymbolRun.operations := by
  have listed : ∀ run, run ∈ (runRows ordered).list ↔
      run.operations ≠ [] ∧ run.operations = operationsOn operations run.id := by
    intro run
    rw [show (runRows ordered).list = symbolRuns operations from rfl, symbolRuns_eq, mem_map]
    refine Iff.trans ?_ (Grouping.mem_keyed_runs SymbolOp.id ordered (run.id, run.operations))
    exact ⟨fun ⟨_, member, same⟩ => same ▸ member, fun member => ⟨_, member, rfl⟩⟩
  cases found : (runRows ordered).get id with
  | none =>
    by_contra some
    exact (Rows.get_eq_none_iff _ _).mp found ⟨id, _⟩ ((listed _).mpr ⟨some, rfl⟩) rfl
  | some run =>
    obtain ⟨member, rfl⟩ := (Rows.get_eq_some_iff _ _ _).mp found
    exact ((listed run).mp member).2.symm

private theorem mapM_eq_map {A B : Type} {step : A → Option B} {total : A → B} {rows : List A}
    (each : ∀ row ∈ rows, step row = some (total row)) : rows.mapM step = some (rows.map total) := by
  induction rows with
  | nil => rfl
  | cons row rows ih =>
    rw [mapM_cons, each row mem_cons_self,
      ih fun other member => each other (mem_cons_of_mem _ member)]
    rfl

variable (valid : SymbolsValid symbols)
include valid

theorem SymbolsValid.get_valid (id : I) : (∀ held ∈ symbols.get StoredSymbol.id id, held.Valid) ∧
      ∀ held ∈ symbols.get StoredSymbol.id id, held.id = id :=
  ⟨fun held found => valid.stored held (PackedIndex.key_of_get valid.index found).1,
    fun _ found => (PackedIndex.key_of_get valid.index found).2⟩

variable (canonical : ∀ operation ∈ operations, operation.Canonical)
include canonical

private theorem applySymbolOperationsSparse_spec :
    AppliesTo symbols operations (applySymbolOperationsSparse symbols operations) := by
  induction operations generalizing symbols with
  | nil =>
    intro _
    exact ⟨symbols, rfl, valid, fun id => rfl⟩
  | cons operation later ih =>
    intro possible
    have onOwn : operationsOn (operation :: later) operation.id =
        operation :: operationsOn later operation.id :=
      filter_cons_of_pos (decide_eq_true rfl)
    have onOther : ∀ id, operation.id ≠ id →
        operationsOn (operation :: later) id = operationsOn later id := fun id differ =>
      filter_cons_of_neg (by simpa only [decide_eq_true_eq] using differ)
    obtain ⟨left, own⟩ := possible operation.id
    rw [onOwn, foldlM_cons] at own
    obtain ⟨replacement, first, -⟩ := Option.bind_eq_some_iff.mp own
    obtain ⟨heldValid, heldPlaced⟩ := valid.get_valid operation.id
    obtain ⟨nextValid, keyed, -⟩ := applyOneSymbol_spec heldValid heldPlaced
      (canonical operation mem_cons_self) first
    have stepValid : SymbolsValid (symbols.updated StoredSymbol.id operation.id replacement) :=
      ⟨PackedIndex.updated_valid valid.index keyed, fun symbol member =>
        (PackedIndex.mem_updated valid.index keyed member).elim (nextValid symbol)
          (valid.stored symbol)⟩
    have agrees : ∀ id, (operationsOn (operation :: later) id).foldlM applyOneSymbol
        (symbols.get StoredSymbol.id id) =
          (operationsOn later id).foldlM applyOneSymbol
            ((symbols.updated StoredSymbol.id operation.id replacement).get StoredSymbol.id id) := by
      intro id
      rw [PackedIndex.get_updated valid.index keyed]
      by_cases same : operation.id = id
      · subst same
        rw [onOwn, foldlM_cons, first, if_pos rfl]
        rfl
      · rw [onOther id same, if_neg (Ne.symm same)]
    obtain ⟨next, applied, finished, each⟩ := ih stepValid
      (fun other member => canonical other (mem_cons_of_mem _ member))
      (fun id => (possible id).imp fun left found => (agrees id).symm.trans found)
    refine ⟨next, ?_, finished, fun id => (agrees id).trans (each id)⟩
    rw [applySymbolOperationsSparse, foldlM_cons, first]
    exact applied

include ordered

private theorem applySymbolOperationsLinear_spec :
    AppliesTo symbols operations (applySymbolOperationsLinear symbols operations) := by
  intro possible
  let held := valid.index.toRows
  let edits := runRows ordered
  let result := fun entry => ((linearSymbol entry).join : Option (StoredSymbol P I))
  have atEach : ∀ id entry, held.both edits id = some entry →
      linearSymbol entry = (operationsOn operations id).foldlM applyOneSymbol (held.get id) := by
    intro id entry found
    obtain ⟨here, edited⟩ := Rows.gets_of_both found
    rw [here, get_runRows ordered, show (runRows ordered).get id = _ from edited]
    cases entry <;> rfl
  have total : ∀ id entry, held.both edits id = some entry →
      linearSymbol entry = some (result entry) := by
    intro id entry found
    obtain ⟨left, folded⟩ := possible id
    rw [PackedIndex.get_eq valid.index, ← atEach id entry found] at folded
    simp only [result, folded, Option.join_some]
  have left : ∀ id entry, held.both edits id = some entry →
      (∀ symbol ∈ result entry, symbol.Valid) ∧ ∀ symbol ∈ result entry, symbol.id = id := by
    intro id entry found
    have folded := (atEach id entry found).symm.trans (total id entry found)
    obtain ⟨heldValid, heldPlaced⟩ := valid.get_valid id
    rw [PackedIndex.get_eq valid.index] at heldValid heldPlaced
    obtain ⟨leftValid, leftPlaced, -⟩ := foldlM_applyOneSymbol
      (fun operation member => canonical operation (mem_filter.mp member).1)
      (fun operation member => of_decide_eq_true (mem_filter.mp member).2)
      heldValid heldPlaced folded
    exact ⟨leftValid, leftPlaced⟩
  let merged := Rows.merge held edits result fun id entry found symbol kept =>
    (left id entry found).2 symbol kept
  have applied : applySymbolOperationsLinear symbols operations =
      some (.fromSorted merged.list) := by
    have walked : (Rows.align StoredSymbol.id SymbolRun.id symbols.rows
        (symbolRuns operations)).mapM linearSymbol = some ((Rows.align StoredSymbol.id SymbolRun.id
          symbols.rows (symbolRuns operations)).map result) :=
      mapM_eq_map fun entry member => total _ entry ((Rows.mem_align_iff held edits entry).mp member)
    rw [applySymbolOperationsLinear, walked]
    show some (PackedIndex.fromSorted ((List.map result _).filterMap _)) = _
    rw [filterMap_map]
    rfl
  refine ⟨_, applied, ⟨PackedIndex.fromSorted_valid merged.ordered, fun symbol member => ?_⟩,
    fun id => ?_⟩
  · rw [PackedIndex.rows_fromSorted, Rows.mem_iff, Rows.get_merge] at member
    obtain ⟨entry, found, kept⟩ := Option.bind_eq_some_iff.mp member
    exact (left _ entry found).1 symbol kept
  · rw [PackedIndex.get_fromSorted, Rows.get_merge, PackedIndex.get_eq valid.index]
    cases found : held.both edits id with
    | none =>
      have neither : held.get id = none ∧ edits.get id = none := Rows.gets_of_both found
      rw [show valid.index.toRows.get id = none from neither.1, get_runRows ordered,
        show (runRows ordered).get id = none from neither.2]
      rfl
    | some entry => exact (atEach id entry found).symm.trans (total id entry found)

theorem applySymbolOperations_spec :
    AppliesTo symbols operations (applySymbolOperations symbols operations) := by
  rw [applySymbolOperations]
  split
  · exact applySymbolOperationsLinear_spec ordered valid canonical
  · exact applySymbolOperationsSparse_spec valid canonical

end

end SolidChecker.Retained
