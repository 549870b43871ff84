/- source: typefacts/src/retained_table.rs; lib.rs -/

import Mathlib.Data.List.Destutter
import SolidChecker.Foundation.Grouping
import SolidChecker.Retained.PackedIndex

namespace SolidChecker.Retained

open Foundation List

structure Location (P : Type) where
  path : P
  startByte : ℕ
  endByte : ℕ
  deriving DecidableEq

structure Declaration (P : Type) where
  kind : String
  name : String
  location : Location P
  deriving DecidableEq

structure SymbolFact (P I : Type) where
  id : I
  references : List (Location P)
  aliasTarget : Option I
  declarations : List (Declaration P)
  deriving DecidableEq

structure ReferenceRun (P : Type) where
  path : P
  locations : List (Location P)
  deriving DecidableEq

structure StoredSymbol (P I : Type) where
  id : I
  aliasTarget : Option I
  declarations : List (Declaration P)
  references : PackedIndex (ReferenceRun P)
  referenceCount : ℕ

structure StoredPath (P H E X : Type) where
  path : P
  source : Option H
  entities : List E
  file : Option X
  deriving DecidableEq

structure StoredTable (P I H E X : Type) where
  schema : ℕ
  generation : ℕ
  projectId : String
  paths : PackedIndex (StoredPath P H E X)
  symbols : PackedIndex (StoredSymbol P I)
  sourceCount : ℕ
  entityCount : ℕ
  fileCount : ℕ
  strictNullChecks : Option Bool

variable {P I H E X : Type}

namespace StoredSymbol

variable (symbol : StoredSymbol P I)

def toFact : SymbolFact P I where
  id := symbol.id
  references := symbol.references.rows.flatMap ReferenceRun.locations
  aliasTarget := symbol.aliasTarget
  declarations := symbol.declarations

structure Content (P I : Type) where
  id : I
  aliasTarget : Option I
  declarations : List (Declaration P)
  referenceCount : ℕ
  references : List (ReferenceRun P)
  deriving DecidableEq

def content : Content P I :=
  ⟨symbol.id, symbol.aliasTarget, symbol.declarations, symbol.referenceCount, symbol.references.rows⟩

private theorem keyed_content : symbol.content.id = symbol.id := rfl

variable [LinearOrder P]

def referenceRuns (references : List (Location P)) : List (ReferenceRun P) :=
  (Grouping.runs Location.path references).filterMap fun run =>
    run.head?.map fun first => ⟨first.path, run⟩

def fromFact (symbol : SymbolFact P I) : StoredSymbol P I where
  id := symbol.id
  aliasTarget := symbol.aliasTarget
  declarations := symbol.declarations
  references := PackedIndex.fromSorted (referenceRuns symbol.references)
  referenceCount := symbol.references.length

/-- A symbol whose references stand in the stretches that storing them anew makes. -/
def Settled : Prop :=
  symbol.content = (fromFact symbol.toFact).content

theorem referenceRuns_flatMap (references : List (Location P)) :
    (referenceRuns references).flatMap ReferenceRun.locations = references := by
  have joined := Grouping.runs_flatten Location.path references
  have filled : ∀ run ∈ Grouping.runs Location.path references, run ≠ [] :=
    fun run member => Grouping.run_nonempty Location.path member
  rw [referenceRuns]
  generalize Grouping.runs Location.path references = runs at joined filled
  subst joined
  induction runs with
  | nil => rfl
  | cons run runs ih =>
    obtain ⟨first, rest, rfl⟩ := exists_cons_of_ne_nil (filled run mem_cons_self)
    have later := ih fun other member => filled other (mem_cons_of_mem _ member)
    simp only [filterMap_cons, head?_cons, Option.map_some, flatMap_cons, later, flatten_cons]

theorem toFact_fromFact (fact : SymbolFact P I) : (fromFact fact).toFact = fact := by
  obtain ⟨id, references, aliasTarget, declarations⟩ := fact
  simp only [toFact, fromFact, PackedIndex.rows_fromSorted, referenceRuns_flatMap]

private theorem fromFact_settled (fact : SymbolFact P I) : (fromFact fact).Settled := by
  rw [Settled, toFact_fromFact]

end StoredSymbol

variable [LinearOrder P] [LinearOrder I]

def StoredSymbol.same (left right : StoredSymbol P I) : Bool := decide (left.content = right.content)

private theorem StoredSymbol.get_stored {rows : Rows StoredSymbol.id}
    {facts : List (SymbolFact P I)} (stored : rows.list.Perm (facts.map fromFact)) (id : I)
    (symbol : StoredSymbol P I) :
    rows.get id = some symbol ↔ ∃ fact ∈ facts, fact.id = id ∧ fromFact fact = symbol := by
  rw [Rows.get_eq_some_iff, stored.mem_iff, mem_map]
  constructor
  · rintro ⟨⟨fact, member, rfl⟩, same⟩
    exact ⟨fact, member, same, rfl⟩
  · rintro ⟨fact, member, same, rfl⟩
    exact ⟨⟨fact, member, rfl⟩, same⟩

namespace StoredTable

open StoredSymbol

def same [DecidableEq H] [DecidableEq E] [DecidableEq X] (left right : StoredTable P I H E X) :
    Bool :=
  decide (left.schema = right.schema ∧ left.generation = right.generation ∧
    left.projectId = right.projectId ∧ left.strictNullChecks = right.strictNullChecks ∧
    left.paths.len = right.paths.len ∧ left.paths.rows = right.paths.rows ∧
    left.symbols.len = right.symbols.len ∧
    left.symbols.rows.map content = right.symbols.rows.map content)

variable (table : StoredTable P I H E X)

def symbolFact (id : I) : Option (SymbolFact P I) :=
  (table.symbols.get StoredSymbol.id id).map toFact

def rowDiffers : Rows.Aligned (StoredSymbol P I) (StoredSymbol P I) → Bool
  | .left _ => true
  | .right _ => true
  | .both left right => !left.same right

/-- Replaces all symbol rows; the ids whose row was added, removed or changed, in order. -/
def replaceSymbols (symbols : List (SymbolFact P I)) : StoredTable P I H E X × List I :=
  let next := (Grouping.sortByKey SymbolFact.id symbols).map fromFact
  let walked := Rows.align StoredSymbol.id StoredSymbol.id table.symbols.rows next
  ({ table with symbols := PackedIndex.fromSorted next },
    (walked.filter rowDiffers).map (Rows.Aligned.place StoredSymbol.id StoredSymbol.id))

def mergedRow (removed : Finset I) :
    Rows.Aligned (StoredSymbol P I) (StoredSymbol P I) → Option (StoredSymbol P I)
  | .left row => if row.id ∈ removed then none else some row
  | .right row => some row
  | .both left replacement => if left.same replacement then some left else some replacement

def mergeDiffers (removed : Finset I) : Rows.Aligned (StoredSymbol P I) (StoredSymbol P I) → Bool
  | .left row => decide (row.id ∈ removed)
  | .right _ => true
  | .both left replacement => !left.same replacement

/-- Replaces the rows of the upserts, adds the new ones and drops the removed ones; the ids whose
row was added, removed or changed, in order. -/
def mergeSymbols (upserts : List (SymbolFact P I)) (removed : Finset I) :
    StoredTable P I H E X × List I :=
  let upserts := (Grouping.sortByKey StoredSymbol.id (upserts.map fromFact)).destutter
    fun earlier later => earlier.id ≠ later.id
  let walked := Rows.align StoredSymbol.id StoredSymbol.id table.symbols.rows upserts
  let changed := (walked.filter (mergeDiffers removed)).map
    (Rows.Aligned.place StoredSymbol.id StoredSymbol.id)
  let next := walked.filterMap (mergedRow removed)
  (if changed = [] then table else { table with symbols := PackedIndex.fromSorted next }, changed)

/-- The old rows with the upserts replaced or inserted and the removed ids dropped, in id order. -/
def successorRows (upserts : List (SymbolFact P I)) (removed : Finset I) : List (SymbolFact P I) :=
  let replaced := (table.symbols.rows.map toFact).filter fun row =>
    upserts.all fun upsert => decide (upsert.id ≠ row.id)
  Grouping.sortByKey SymbolFact.id
    ((replaced ++ upserts).filter fun row => decide (row.id ∉ removed))

structure Retains (table : StoredTable P I H E X) : Prop where
  valid : table.symbols.Valid StoredSymbol.id
  settled : ∀ symbol ∈ table.symbols.rows, symbol.Settled

section

variable {table : StoredTable P I H E X} {upserts : List (SymbolFact P I)} {removed : Finset I}

private abbrev SymbolIndex (P I : Type) [LinearOrder I] :=
  Rows (StoredSymbol.id : StoredSymbol P I → I)

variable (distinct : (upserts.map SymbolFact.id).Nodup)

private def upsertRows : SymbolIndex P I :=
  ⟨Grouping.sortByKey StoredSymbol.id (upserts.map fromFact),
    Grouping.sortByKey_strict StoredSymbol.id (by rwa [map_map])⟩

private theorem upsertRows_list :
    (Grouping.sortByKey StoredSymbol.id (upserts.map fromFact)).destutter
      (fun earlier later => earlier.id ≠ later.id) = (upsertRows (P := P) distinct).list := by
  refine destutter_of_isChain _ _ ?_
  exact ((upsertRows distinct).ordered.imp fun below => ne_of_lt below).isChain

variable (removed) (retains : table.Retains)

include distinct retains in
private theorem successor_distinct :
    ((table.successorRows upserts removed).map SymbolFact.id).Nodup := by
  refine (((Grouping.sortByKey_perm _ _).map SymbolFact.id).nodup_iff).mpr ?_
  have held : ((table.symbols.rows.map toFact).map SymbolFact.id).Nodup := by
    rw [map_map]
    exact retains.valid.toRows.keys_nodup
  refine .sublist (filter_sublist.map _) ?_
  rw [map_append, nodup_append]
  refine ⟨held.sublist (filter_sublist.map _), distinct, ?_⟩
  intro first inFirst second inSecond same
  obtain ⟨row, member, rfl⟩ := mem_map.mp inFirst
  obtain ⟨upsert, listed, rfl⟩ := mem_map.mp inSecond
  exact of_decide_eq_true (all_eq_true.mp (mem_filter.mp member).2 upsert listed) same.symm

private def nextRows : SymbolIndex P I :=
  ⟨(Grouping.sortByKey SymbolFact.id (table.successorRows upserts removed)).map fromFact,
    pairwise_map.mpr
      (Grouping.sortByKey_strict SymbolFact.id (successor_distinct removed distinct retains))⟩

variable {removed}

omit [LinearOrder P] in
private theorem mem_successorRows (fact : SymbolFact P I) :
    fact ∈ table.successorRows upserts removed ↔
      ((∃ symbol ∈ table.symbols.rows, symbol.toFact = fact ∧
        fact.id ∉ upserts.map SymbolFact.id) ∨ fact ∈ upserts) ∧ fact.id ∉ removed := by
  rw [successorRows, (Grouping.sortByKey_perm _ _).mem_iff, mem_filter, decide_eq_true_eq]
  simp only [mem_append, mem_filter, mem_map, all_eq_true, decide_eq_true_eq, not_exists, not_and]
  refine and_congr_left fun _ => or_congr_left ?_
  constructor
  · rintro ⟨⟨symbol, held, same⟩, kept⟩
    exact ⟨symbol, held, same, kept⟩
  · rintro ⟨symbol, held, same, kept⟩
    exact ⟨⟨symbol, held, same⟩, kept⟩

private theorem get_upsertRows_iff (id : I) (symbol : StoredSymbol P I) :
    (upsertRows distinct).get id = some symbol ↔
      ∃ fact ∈ upserts, fact.id = id ∧ fromFact fact = symbol :=
  get_stored (Grouping.sortByKey_perm _ _) id symbol

private theorem settled_of_get {id : I} {symbol : StoredSymbol P I}
    (found : retains.valid.toRows.get id = some symbol) :
    symbol.content = (fromFact symbol.toFact).content :=
  retains.settled symbol ((Rows.get_eq_some_iff _ _ _).mp found).1

private theorem mergedRow_keyed (removed : Finset I) (held upserted : SymbolIndex P I) (id : I)
    (entry : Rows.Aligned (StoredSymbol P I) (StoredSymbol P I))
    (found : held.both upserted id = some entry) (row : StoredSymbol P I)
    (kept : mergedRow removed entry = some row) : row.id = id := by
  have placed := Rows.place_of_both found
  cases entry with
  | left first =>
    obtain ⟨-, same⟩ := Option.ite_none_left_eq_some.mp kept
    exact Option.some.inj same ▸ placed
  | right second => exact Option.some.inj kept ▸ placed
  | both first second =>
    simp only [mergedRow] at kept
    split at kept
    · exact Option.some.inj kept ▸ placed
    · exact Option.some.inj kept ▸ Rows.key_of_get (Rows.gets_of_both found).2

private def mergedRows (removed : Finset I) (held upserted : SymbolIndex P I) : SymbolIndex P I :=
  Rows.merge held upserted (mergedRow removed) (mergedRow_keyed removed held upserted)

private theorem mergeSymbols_changed : (table.mergeSymbols upserts removed).2 =
      Rows.keysWhere retains.valid.toRows (upsertRows distinct) (mergeDiffers removed) := by
  rw [mergeSymbols, upsertRows_list distinct]
  rfl

private theorem replaceSymbols_changed :
    (table.replaceSymbols (table.successorRows upserts removed)).2 =
      Rows.keysWhere retains.valid.toRows (nextRows removed distinct retains) rowDiffers := rfl

private theorem content_unchanged
    (unchanged : (table.replaceSymbols (table.successorRows upserts removed)).2 = []) (id : I) :
    (retains.valid.toRows.get id).map content =
      ((nextRows removed distinct retains).get id).map content := by
  rw [replaceSymbols_changed distinct retains] at unchanged
  have quiet : ¬ ∃ entry, retains.valid.toRows.both (nextRows removed distinct retains) id =
      some entry ∧ rowDiffers entry := by
    rw [← Rows.mem_keysWhere_iff, unchanged]
    exact not_mem_nil
  unfold Rows.both at quiet
  cases held : retains.valid.toRows.get id with
  | none =>
    cases next : (nextRows removed distinct retains).get id with
    | none => rfl
    | some symbol =>
      rw [held, next] at quiet
      exact absurd ⟨_, rfl, rfl⟩ quiet
  | some old =>
    cases next : (nextRows removed distinct retains).get id with
    | none =>
      rw [held, next] at quiet
      exact absurd ⟨_, rfl, rfl⟩ quiet
    | some symbol =>
      rw [held, next] at quiet
      by_contra differ
      have apart : old.content ≠ symbol.content := fun same => differ (congrArg some same)
      have report : rowDiffers (.both old symbol) := by
        rw [rowDiffers, StoredSymbol.same, decide_eq_false apart]
        rfl
      exact quiet ⟨_, rfl, report⟩

private theorem mergeSymbols_frame (table : StoredTable P I H E X) (upserts : List (SymbolFact P I))
    (removed : Finset I) : (table.mergeSymbols upserts removed).1 =
      { table with symbols := (table.mergeSymbols upserts removed).1.symbols } := by
  simp only [mergeSymbols]
  split <;> rfl

private theorem mergeSymbols_rows :
    (table.mergeSymbols upserts removed).1 =
      if (table.mergeSymbols upserts removed).2 = [] then table
      else
        let next := (mergedRows removed retains.valid.toRows (upsertRows distinct)).list
        { table with symbols := .fromSorted next } := by
  simp only [mergeSymbols, upsertRows_list distinct]
  rfl

section

variable (apart : ∀ fact ∈ upserts, fact.id ∉ removed)
include apart

private theorem get_nextRows (id : I) :
    (nextRows removed distinct retains).get id = ((upsertRows distinct).get id).or
      (if id ∈ removed then none
        else (retains.valid.toRows.get id).map fun symbol => fromFact symbol.toFact) := by
  have upserted := get_upsertRows_iff (P := P) distinct id
  refine Option.ext fun symbol => (get_stored ((Grouping.sortByKey_perm _ _).map _) id symbol).trans ?_
  constructor
  · rintro ⟨fact, member, rfl, rfl⟩
    obtain ⟨⟨old, held, rfl, kept⟩ | new, stays⟩ := (mem_successorRows fact).mp member
    · have found : retains.valid.toRows.get old.id = some old := (Rows.mem_iff _ _).mp held
      have none : (upsertRows distinct).get old.id = none :=
        Option.eq_none_iff_forall_ne_some.mpr fun symbol upsert =>
          (upserted symbol).mp upsert |>.elim fun fact ⟨member, named, _⟩ =>
            kept (named ▸ mem_map_of_mem member)
      rw [show old.toFact.id = old.id from rfl] at stays
      simp [none, if_neg stays, found, toFact]
    · rw [(upserted _).mpr ⟨fact, new, rfl, rfl⟩]
      rfl
  · intro found
    cases upsert : (upsertRows (P := P) distinct).get id with
    | some new =>
      rw [upsert] at found
      cases found
      obtain ⟨fact, member, named, stored⟩ := (upserted _).mp upsert
      exact ⟨fact, (mem_successorRows fact).mpr ⟨.inr member, apart fact member⟩, named, stored⟩
    | none =>
      rw [upsert, Option.none_or, Option.ite_none_left_eq_some] at found
      obtain ⟨old, held, rfl⟩ := Option.map_eq_some_iff.mp found.2
      obtain ⟨member, rfl⟩ := (Rows.get_eq_some_iff _ _ _).mp held
      refine ⟨old.toFact, (mem_successorRows _).mpr ⟨.inl ⟨old, member, rfl, fun listed => ?_⟩,
        found.1⟩, rfl, rfl⟩
      obtain ⟨fact, listed, named⟩ := mem_map.mp listed
      exact nomatch upsert.symm.trans ((upserted _).mpr ⟨fact, listed, named, rfl⟩)

private theorem differs_iff (id : I) :
    (∃ entry, retains.valid.toRows.both (upsertRows distinct) id = some entry ∧
        mergeDiffers removed entry) ↔
      ∃ entry, retains.valid.toRows.both (nextRows removed distinct retains) id = some entry ∧
        rowDiffers entry := by
  unfold Rows.both
  rw [get_nextRows distinct retains apart]
  cases upsert : (upsertRows (P := P) distinct).get id with
  | some symbol =>
    cases retains.valid.toRows.get id <;> simp [Rows.Aligned.pair, mergeDiffers, rowDiffers]
  | none =>
    cases held : retains.valid.toRows.get id with
    | none => simp [Rows.Aligned.pair]
    | some old =>
      have named : old.id = id := Rows.key_of_get held
      have same : old.same (fromFact old.toFact) :=
        decide_eq_true (settled_of_get retains held)
      by_cases gone : id ∈ removed <;>
        simp [gone, Rows.Aligned.pair, mergeDiffers, rowDiffers, named, same]

private theorem content_mergedRows (id : I) :
    ((mergedRows removed retains.valid.toRows (upsertRows distinct)).get id).map content =
      ((nextRows removed distinct retains).get id).map content := by
  rw [mergedRows, Rows.get_merge, Rows.both, get_nextRows distinct retains apart]
  cases upsert : (upsertRows (P := P) distinct).get id with
  | some symbol =>
    cases retains.valid.toRows.get id with
    | none => rfl
    | some old =>
      show (if old.same symbol then some old else some symbol).map content = some symbol.content
      split
      · rename_i equal
        exact congrArg some (of_decide_eq_true equal)
      · rfl
  | none =>
    cases held : retains.valid.toRows.get id with
    | none =>
      rw [Option.map_none, ite_self]
      rfl
    | some old =>
      have named : old.id = id := Rows.key_of_get held
      show (if old.id ∈ removed then none else some old).map content = _
      rw [named]
      split
      · rfl
      · exact congrArg some (settled_of_get retains held)

include distinct retains in
private theorem changed_eq : (table.mergeSymbols upserts removed).2 =
      (table.replaceSymbols (table.successorRows upserts removed)).2 := by
  rw [mergeSymbols_changed distinct retains, replaceSymbols_changed distinct retains]
  exact Rows.keysWhere_eq (differs_iff distinct retains apart)

private theorem mergeSymbols_content :
    (table.mergeSymbols upserts removed).1.symbols.rows.map content =
      (nextRows removed distinct retains).list.map content := by
  rw [mergeSymbols_rows distinct retains]
  split
  · rename_i unchanged
    rw [changed_eq distinct retains apart] at unchanged
    exact Rows.map_eq_of_get content Content.id keyed_content
      (content_unchanged distinct retains unchanged)
  · rw [PackedIndex.rows_fromSorted]
    exact Rows.map_eq_of_get content Content.id keyed_content
      (content_mergedRows distinct retains apart)

end

private theorem replaceSymbols_retains (table : StoredTable P I H E X) {symbols : List (SymbolFact P I)}
    (distinct : (symbols.map SymbolFact.id).Nodup) : (table.replaceSymbols symbols).1.Retains := by
  have ordered := Grouping.sortByKey_strict SymbolFact.id distinct
  refine ⟨PackedIndex.fromSorted_valid (pairwise_map.mpr ordered), ?_⟩
  intro symbol member
  rw [show (table.replaceSymbols symbols).1.symbols.rows = _ from PackedIndex.rows_fromSorted _]
    at member
  obtain ⟨fact, -, rfl⟩ := mem_map.mp member
  exact fromFact_settled fact

private theorem mergeSymbols_retains (removed : Finset I) (retains : table.Retains)
    (distinct : (upserts.map SymbolFact.id).Nodup) :
    (table.mergeSymbols upserts removed).1.Retains := by
  rw [mergeSymbols_rows distinct retains]
  split
  · exact retains
  · refine ⟨PackedIndex.fromSorted_valid (Rows.ordered _), ?_⟩
    intro symbol member
    rw [PackedIndex.rows_fromSorted, Rows.mem_iff, mergedRows, Rows.get_merge] at member
    obtain ⟨entry, found, kept⟩ := Option.bind_eq_some_iff.mp member
    have held : ∀ {id : I} {old : StoredSymbol P I},
        retains.valid.toRows.get id = some old → old.Settled := fun found =>
      settled_of_get retains found
    have stored : ∀ {id : I} {new : StoredSymbol P I},
        (upsertRows distinct).get id = some new → new.Settled := by
      intro id new found
      obtain ⟨fact, -, -, rfl⟩ := (get_upsertRows_iff distinct id new).mp found
      exact fromFact_settled fact
    cases entry with
    | left old =>
      obtain ⟨-, same⟩ := Option.ite_none_left_eq_some.mp kept
      cases same
      exact held (Rows.gets_of_both found).1
    | right new =>
      cases kept
      exact stored (Rows.gets_of_both found).2
    | both old new =>
      obtain ⟨first, second⟩ := Rows.gets_of_both found
      simp only [mergedRow] at kept
      split at kept
      · exact Option.some.inj kept ▸ held first
      · exact Option.some.inj kept ▸ stored second

/-- For every retained table, distinct upserts and removed ids apart from them: the merge reports
the ids and leaves the table that the replacement by the full successor rows does. -/
theorem merge_is_replacement [DecidableEq H] [DecidableEq E] [DecidableEq X]
    (retains : table.Retains) (distinct : (upserts.map SymbolFact.id).Nodup)
    (apart : ∀ fact ∈ upserts, fact.id ∉ removed) :
    let merged := table.mergeSymbols upserts removed
    let replaced := table.replaceSymbols (table.successorRows upserts removed)
    merged.2 = replaced.2 ∧ merged.1.same replaced.1 = true ∧
      merged.1.Retains ∧ replaced.1.Retains := by
  have contents := mergeSymbols_content distinct retains apart
  have merged := mergeSymbols_retains removed retains distinct
  have replaced := table.replaceSymbols_retains (successor_distinct removed distinct retains)
  refine ⟨changed_eq distinct retains apart, ?_, merged, replaced⟩
  have rows : (table.replaceSymbols (table.successorRows upserts removed)).1.symbols.rows =
      (nextRows removed distinct retains).list := PackedIndex.rows_fromSorted _
  have lengths := congrArg List.length contents
  rw [length_map, length_map, ← rows, ← merged.valid.counted, ← replaced.valid.counted] at lengths
  rw [← rows] at contents
  rw [same, decide_eq_true_eq, lengths, contents, mergeSymbols_frame]
  exact ⟨rfl, rfl, rfl, rfl, rfl, rfl, rfl, rfl⟩

end

section

def bareFact (id : ℕ) (aliasTarget : Option ℕ) : SymbolFact ℕ ℕ := ⟨id, [], aliasTarget, []⟩

def tableOf (symbols : List (SymbolFact ℕ ℕ)) : StoredTable ℕ ℕ Unit Unit Unit where
  schema := 24
  generation := 1
  projectId := "p"
  paths := PackedIndex.empty
  symbols := PackedIndex.fromSorted (symbols.map fromFact)
  sourceCount := 0
  entityCount := 0
  fileCount := 0
  strictNullChecks := none

private theorem tableOf_retains {symbols : List (SymbolFact ℕ ℕ)}
    (ordered : symbols.Pairwise fun first second => first.id < second.id) :
    (tableOf symbols).Retains := by
  refine ⟨PackedIndex.fromSorted_valid (pairwise_map.mpr ordered), ?_⟩
  intro symbol member
  rw [show (tableOf symbols).symbols.rows = _ from PackedIndex.rows_fromSorted _] at member
  obtain ⟨fact, -, rfl⟩ := mem_map.mp member
  exact fromFact_settled fact

/-- One row replaced, one added and one removed. -/
theorem merge_is_replacement_of_three :
    let table := tableOf [bareFact 1 none, bareFact 2 none, bareFact 3 none]
    let upserts := [bareFact 2 (some 1), bareFact 4 none]
    let merged := table.mergeSymbols upserts {3}
    let replaced := table.replaceSymbols (table.successorRows upserts {3})
    merged.2 = replaced.2 ∧ merged.1.same replaced.1 = true ∧
      merged.1.Retains ∧ replaced.1.Retains :=
  merge_is_replacement (tableOf_retains (by decide)) (by decide) (by decide)

end

end StoredTable

end SolidChecker.Retained
