/- source: typefacts/src/retained_table.rs -/

import SolidChecker.Retained.StoredTable

namespace SolidChecker.Retained

open Foundation List

/-- The leaves of an index by their addresses. A leaf is never written again, so one heap gives the
rows at every address, whichever tables hold it. -/
structure LeafDirectory {A V K : Type} [LinearOrder K] (heap : A → List V) (key : V → K) where
  leaves : List A
  ordered : (leaves.flatMap heap).Pairwise fun first second => key first < key second

namespace LeafDirectory

variable {A V K : Type} [LinearOrder K] {heap : A → List V} {key : V → K}
  (directory : LeafDirectory heap key)

def toRows : Rows key :=
  ⟨directory.leaves.flatMap heap, directory.ordered⟩

def unshared [DecidableEq A] (shared : List A) : Rows key where
  list := (directory.leaves.filter fun leaf => decide (leaf ∉ shared)).flatMap heap
  ordered := directory.ordered.sublist (filter_sublist.flatMap heap)

private theorem mem_toRows (row : V) :
    row ∈ directory.toRows.list ↔ ∃ leaf ∈ directory.leaves, row ∈ heap leaf :=
  mem_flatMap

private theorem mem_unshared [DecidableEq A] (shared : List A) (row : V) :
    row ∈ (directory.unshared shared).list ↔
      ∃ leaf ∈ directory.leaves, leaf ∉ shared ∧ row ∈ heap leaf := by
  simp only [unshared, mem_flatMap, mem_filter, decide_eq_true_eq, and_assoc]

private theorem leaf_unique {first second : A} (inFirst : first ∈ directory.leaves)
    (inSecond : second ∈ directory.leaves) {a b : V} (firstRow : a ∈ heap first)
    (secondRow : b ∈ heap second) (same : key a = key b) : first = second := by
  have apart : directory.leaves.Pairwise fun left right =>
      ∀ x ∈ heap left, ∀ y ∈ heap right, key x ≠ key y :=
    (pairwise_flatMap.mp directory.ordered).2.imp fun below x inLeft y inRight =>
      ne_of_lt (below x inLeft y inRight)
  have symmetric : Std.Symm fun left right =>
      ∀ x ∈ heap left, ∀ y ∈ heap right, key x ≠ key y :=
    ⟨fun left right differ x inRight y inLeft equal => differ y inLeft x inRight equal.symm⟩
  by_contra differ
  exact apart.forall inFirst inSecond differ a firstRow b secondRow same

variable {shared : List A}

private theorem get_unshared_of_shared [DecidableEq A] {leaf : A}
    (held : leaf ∈ directory.leaves) (inShared : leaf ∈ shared) {row : V} (inLeaf : row ∈ heap leaf)
    : (directory.unshared shared).get (key row) = none := by
  rw [Rows.get_eq_none_iff]
  intro other member same
  obtain ⟨home, atHome, apart, inHome⟩ := (mem_unshared directory shared other).mp member
  have one := directory.leaf_unique atHome held inHome inLeaf same
  exact apart (one ▸ inShared)

private theorem get_unshared_of_apart [DecidableEq A] {k : K}
    (apart : ∀ leaf ∈ directory.leaves, leaf ∈ shared → ∀ row ∈ heap leaf, key row ≠ k) :
    (directory.unshared shared).get k = directory.toRows.get k := by
  refine Option.ext fun row => ?_
  rw [Rows.get_eq_some_iff, Rows.get_eq_some_iff, mem_unshared, mem_toRows]
  constructor
  · rintro ⟨⟨leaf, held, -, inLeaf⟩, named⟩
    exact ⟨⟨leaf, held, inLeaf⟩, named⟩
  · rintro ⟨⟨leaf, held, inLeaf⟩, named⟩
    exact ⟨⟨leaf, held, fun inShared => apart leaf held inShared row inLeaf named, inLeaf⟩, named⟩

end LeafDirectory

section

variable {A P I : Type} [DecidableEq A] [LinearOrder I] [DecidableEq P]
  {heap : A → List (StoredSymbol P I)}

/-- Whether a symbol was added or removed, or its alias target or declarations differ. -/
def declarationMoved : Rows.Aligned (StoredSymbol P I) (StoredSymbol P I) → Bool
  | .left _ => true
  | .right _ => true
  | .both left right =>
    !(decide (left.aliasTarget = right.aliasTarget) &&
      decide (left.declarations = right.declarations))

/-- The ids whose alias target or declarations differ, from the leaves the indexes do not share. -/
def symbolsWithMovedDeclarations (current previous : LeafDirectory heap StoredSymbol.id) : List I :=
  let shared := current.leaves.filter fun leaf => decide (leaf ∈ previous.leaves)
  let walked := Rows.align StoredSymbol.id StoredSymbol.id (previous.unshared shared).list
    (current.unshared shared).list
  (walked.filter declarationMoved).map (Rows.Aligned.place StoredSymbol.id StoredSymbol.id)

def StoredSymbol.declared (symbol : StoredSymbol P I) : Option I × List (Declaration P) :=
  (symbol.aliasTarget, symbol.declarations)

private theorem moved_iff (before after : Option (StoredSymbol P I)) :
    (∃ entry, Rows.Aligned.pair before after = some entry ∧ declarationMoved entry) ↔
      before.map StoredSymbol.declared ≠ after.map StoredSymbol.declared := by
  cases before with
  | none =>
    cases after with
    | none => simp [Rows.Aligned.pair]
    | some right => simp [Rows.Aligned.pair, declarationMoved]
  | some left =>
    cases after with
    | none => simp [Rows.Aligned.pair, declarationMoved]
    | some right =>
      simp only [Rows.Aligned.pair, Option.some.injEq, exists_eq_left', declarationMoved,
        Bool.not_eq_true', Bool.and_eq_false_iff, decide_eq_false_iff_not, Option.map_some,
        StoredSymbol.declared, ne_eq, Prod.mk.injEq, not_and_or]

/-- For every two indexes over one heap, whichever leaves they share: the listed ids ascend, and
they are exactly those whose alias target or declarations differ. -/
theorem moved_declarations_exact (current previous : LeafDirectory heap StoredSymbol.id) :
    (symbolsWithMovedDeclarations current previous).Pairwise (· < ·) ∧
      ∀ id, id ∈ symbolsWithMovedDeclarations current previous ↔
        (previous.toRows.get id).map StoredSymbol.declared ≠
          (current.toRows.get id).map StoredSymbol.declared := by
  let shared := current.leaves.filter fun leaf => leaf ∈ previous.leaves
  have walk : symbolsWithMovedDeclarations current previous =
      Rows.keysWhere (previous.unshared shared) (current.unshared shared) declarationMoved := rfl
  rw [walk]
  refine ⟨Rows.keysWhere_ordered _ _ _, fun id => ?_⟩
  rw [Rows.mem_keysWhere_iff, Rows.both, moved_iff]
  have inBoth : ∀ leaf, leaf ∈ shared ↔ leaf ∈ current.leaves ∧ leaf ∈ previous.leaves := by
    intro leaf
    simp only [shared, mem_filter, decide_eq_true_eq]
  -- Either a leaf of both holds the id, with one row for both, or no shared leaf does.
  by_cases skipped : ∃ leaf ∈ shared, ∃ row ∈ heap leaf, row.id = id
  · obtain ⟨leaf, inShared, row, inLeaf, rfl⟩ := skipped
    obtain ⟨held, heldBefore⟩ := (inBoth leaf).mp inShared
    have now : current.toRows.get row.id = some row :=
      (Rows.mem_iff _ row).mp (mem_flatMap.mpr ⟨leaf, held, inLeaf⟩)
    have before : previous.toRows.get row.id = some row :=
      (Rows.mem_iff _ row).mp (mem_flatMap.mpr ⟨leaf, heldBefore, inLeaf⟩)
    rw [previous.get_unshared_of_shared heldBefore inShared inLeaf,
      current.get_unshared_of_shared held inShared inLeaf, now, before]
    simp only [ne_eq, not_true_eq_false]
  · have apart : ∀ leaf ∈ shared, ∀ row ∈ heap leaf, row.id ≠ id := by
      intro leaf inShared row inLeaf named
      exact skipped ⟨leaf, inShared, row, inLeaf, named⟩
    rw [previous.get_unshared_of_apart fun leaf _ inShared => apart leaf inShared,
      current.get_unshared_of_apart fun leaf _ inShared => apart leaf inShared]

end

def aliasHeap : Fin 3 → List (StoredSymbol ℕ ℕ)
  | 0 => [⟨0, none, [], .empty, 0⟩]
  | 1 => [⟨1, none, [], .empty, 0⟩]
  | 2 => [⟨1, some 0, [], .empty, 0⟩]

theorem moved_declarations_exact_of_alias :
    let previous : LeafDirectory aliasHeap StoredSymbol.id := ⟨[0, 1], by decide⟩
    let current : LeafDirectory aliasHeap StoredSymbol.id := ⟨[0, 2], by decide⟩
    0 ∉ symbolsWithMovedDeclarations current previous ∧
      1 ∈ symbolsWithMovedDeclarations current previous := by
  intro previous current
  have exact := (moved_declarations_exact current previous).2
  rw [exact, exact]
  decide

end SolidChecker.Retained
