/- source: typefacts/src/retained_table.rs -/

import Mathlib.Data.List.TakeWhile
import SolidChecker.Foundation.Rows

namespace SolidChecker.Retained

open Foundation List

structure PackedIndex (V : Type) where
  leaves : List (List V)
  len : ℕ
  deriving DecidableEq

namespace PackedIndex

def leafTarget : ℕ := 64

def leafMax : ℕ := leafTarget * 2

variable {V K : Type}

def chunks : ℕ → List V → List (List V)
  | 0, _ => []
  | fuel + 1, rows =>
    if rows.isEmpty then []
    else rows.take leafTarget :: chunks fuel (rows.drop leafTarget)

def empty : PackedIndex V := ⟨[], 0⟩

def fromSorted (rows : List V) : PackedIndex V := ⟨chunks rows.length rows, rows.length⟩

def rows (index : PackedIndex V) : List V := index.leaves.flatten

section

variable [LinearOrder K] (key : V → K)

def binarySearch (leaf : List V) (k : K) : Except ℕ ℕ :=
  let index := Rows.place key leaf k
  match leaf[index]? with
  | some row => if key row = k then .ok index else .error index
  | none => .error index

def endsBelow (k : K) (leaf : List V) : Bool :=
  match leaf.getLast? with
  | some row => decide (key row < k)
  | none => false

def leafIndex (leaves : List (List V)) (k : K) : ℕ :=
  min (leaves.takeWhile (endsBelow key k)).length (leaves.length - 1)

def leafFor (index : PackedIndex V) (k : K) : Option (List V) :=
  index.leaves[leafIndex key index.leaves k]?

def get (index : PackedIndex V) (k : K) : Option V :=
  (index.leafFor key k).bind fun leaf =>
    match binarySearch key leaf k with
    | .ok place => leaf[place]?
    | .error _ => none

def editLeaf (leaf : List V) (k : K) (replacement : Option V) : List V :=
  match binarySearch key leaf k, replacement with
  | .ok place, some row => leaf.set place row
  | .ok place, none => leaf.eraseIdx place
  | .error place, some row => leaf.insertIdx place row
  | .error _, none => leaf

/-- Puts an edited leaf in its place: an empty one leaves, one too large is split. -/
def putLeaf (leaves : List (List V)) (place : ℕ) (leaf : List V) : List (List V) :=
  if leaf.isEmpty then leaves.eraseIdx place
  else if leafMax < leaf.length then
    (leaves.set place (leaf.take leafTarget)).insertIdx (place + 1) (leaf.drop leafTarget)
  else leaves.set place leaf

def updated (index : PackedIndex V) (k : K) (replacement : Option V) : PackedIndex V :=
  let place := leafIndex key index.leaves k
  match index.leaves[place]? with
  | none => fromSorted replacement.toList
  | some leaf =>
    let leaves := putLeaf index.leaves place (editLeaf key leaf k replacement)
    ⟨leaves, (leaves.map List.length).sum⟩

/-- Leaves as the index keeps them: none is empty or too large, and the rows are in order. -/
structure Valid (index : PackedIndex V) : Prop where
  filled : ∀ leaf ∈ index.leaves, leaf ≠ []
  bounded : ∀ leaf ∈ index.leaves, leaf.length ≤ leafMax
  ordered : index.rows.Pairwise fun first second => key first < key second
  counted : index.len = index.rows.length

variable {key}

def Valid.toRows {index : PackedIndex V} (valid : index.Valid key) : Rows key :=
  ⟨index.rows, valid.ordered⟩

end

section

private theorem chunks_spec (fuel : ℕ) (rows : List V) (enough : rows.length ≤ fuel) :
    (chunks fuel rows).flatten = rows ∧
      ∀ leaf ∈ chunks fuel rows, leaf ≠ [] ∧ leaf.length ≤ leafTarget := by
  induction fuel generalizing rows with
  | zero =>
    obtain rfl := length_eq_zero_iff.mp (Nat.le_zero.mp enough)
    exact ⟨rfl, fun leaf member => nomatch member⟩
  | succ fuel ih =>
    rw [chunks]
    cases rows with
    | nil => exact ⟨rfl, fun leaf member => nomatch member⟩
    | cons head tail =>
      have shorter : ((head :: tail).drop leafTarget).length ≤ fuel := by
        simp only [length_drop, leafTarget]
        omega
      obtain ⟨joined, sized⟩ := ih _ shorter
      rw [if_neg (by exact nofun)]
      refine ⟨?_, fun leaf member => ?_⟩
      · rw [flatten_cons, joined, take_append_drop]
      · rcases mem_cons.mp member with rfl | later
        · exact ⟨by exact nofun, length_take_le _ _⟩
        · exact sized leaf later

@[simp]
theorem rows_fromSorted (rows : List V) : (fromSorted rows).rows = rows :=
  (chunks_spec rows.length rows le_rfl).1

@[simp]
theorem len_fromSorted (rows : List V) : (fromSorted rows).len = rows.length := rfl

variable [LinearOrder K] {key : V → K}

theorem fromSorted_valid {rows : List V}
    (ordered : rows.Pairwise fun first second => key first < key second) :
    (fromSorted rows).Valid key := by
  have sized := (chunks_spec rows.length rows le_rfl).2
  refine ⟨fun leaf member => (sized leaf member).1, fun leaf member => ?_, ?_, ?_⟩
  · exact (sized leaf member).2.trans (by decide)
  · rwa [rows_fromSorted]
  · rw [rows_fromSorted, len_fromSorted]

end

section

variable [LinearOrder K] {key : V → K} {leaf : List V} {index : PackedIndex V}

private theorem endsBelow_iff {k : K}
    (ordered : leaf.Pairwise fun first second => key first < key second) (filled : leaf ≠ []) :
    endsBelow key k leaf ↔ ∀ row ∈ leaf, key row < k := by
  obtain ⟨front, last, rfl⟩ := (eq_nil_or_concat' leaf).resolve_left filled
  rw [endsBelow, getLast?_concat]
  simp only [decide_eq_true_eq]
  constructor
  · intro below row member
    rcases mem_append.mp member with early | final
    · exact ((pairwise_append.mp ordered).2.2 row early last (mem_singleton_self _)).trans below
    · obtain rfl := mem_singleton.mp final
      exact below
  · intro all
    exact all last (mem_append_right _ (mem_singleton_self _))

private theorem leaf_ordered (valid : index.Valid key) (held : leaf ∈ index.leaves) :
    leaf.Pairwise fun first second => key first < key second :=
  (pairwise_flatten.mp valid.ordered).1 leaf held

private theorem leafIndex_spec (valid : index.Valid key) (k : K) (some : index.leaves ≠ []) :
    ∃ before leaf after, index.leaves = before ++ leaf :: after ∧
      leafIndex key index.leaves k = before.length ∧
      (∀ row ∈ before.flatten, key row < k) ∧ ∀ row ∈ after.flatten, k < key row := by
  have early : ∀ row ∈ (index.leaves.takeWhile (endsBelow key k)).flatten, key row < k := by
    intro row member
    obtain ⟨leaf, within, inLeaf⟩ := mem_flatten.mp member
    have held : leaf ∈ index.leaves := ( takeWhile_prefix _).subset within
    exact (endsBelow_iff (leaf_ordered valid held) (valid.filled leaf held)).mp
      (mem_takeWhile_imp within) row inLeaf
  have parts := takeWhile_append_dropWhile (p := endsBelow key k) (l := index.leaves)
  cases rest : index.leaves.dropWhile (endsBelow key k) with
  | cons leaf after =>
    rw [rest] at parts
    have held : leaf ∈ index.leaves := parts ▸ mem_append_right _ mem_cons_self
    refine ⟨_, leaf, after, parts.symm, ?_, early, fun row member => ?_⟩
    · have total := congrArg List.length parts
      rw [length_append, length_cons] at total
      rw [leafIndex]
      omega
    -- The leaf has a row that is not below the key, and the rows behind it are above that row.
    · have stops : endsBelow key k leaf = false := by
        have head := head_dropWhile_not (endsBelow key k) (l := index.leaves) (by
          rw [rest]
          exact nofun)
        simpa only [rest, head_cons, Bool.not_eq_true] using head
      have reached : ∃ high ∈ leaf, k ≤ key high := by
        by_contra none
        push Not at none
        rw [(endsBelow_iff (leaf_ordered valid held) (valid.filled leaf held)).mpr none] at stops
        exact nomatch stops
      obtain ⟨high, inLeaf, above⟩ := reached
      have ordered := valid.ordered
      rw [PackedIndex.rows, ← parts, flatten_append, flatten_cons] at ordered
      have behind := (pairwise_append.mp (pairwise_append.mp ordered).2.1).2.2
      exact above.trans_lt (behind high inLeaf row member)
  | nil =>
    rw [rest, append_nil] at parts
    obtain ⟨front, last, same⟩ := (eq_nil_or_concat' index.leaves).resolve_left some
    refine ⟨front, last, [], same, ?_, fun row member => ?_, fun row member => nomatch member⟩
    · rw [leafIndex, parts, same, length_append, length_singleton]
      omega
    · refine early row ?_
      rw [parts, same, flatten_append]
      exact mem_append_left _ member

private theorem rows_parts {before after : List (List V)}
    (parts : index.leaves = before ++ leaf :: after) :
    index.rows = before.flatten ++ (leaf ++ after.flatten) := by
  rw [rows, parts, flatten_append, flatten_cons]

private theorem binarySearch_eq (stretch : Rows key) (k : K) :
    binarySearch key stretch.list k = match stretch.get k with
      | some _ => .ok (Rows.place key stretch.list k)
      | none => .error (Rows.place key stretch.list k) := by
  rw [binarySearch, stretch.get_place]
  cases stretch.list[Rows.place key stretch.list k]? with
  | none => rfl
  | some row => by_cases same : key row = k <;> simp [Option.filter_some, same]

private theorem rows_of_no_leaf (none : index.leaves = []) : index.rows = [] := by
  rw [rows, none, flatten_nil]

theorem get_eq (valid : index.Valid key) (k : K) : index.get key k = valid.toRows.get k := by
  by_cases none : index.leaves = []
  · have empty : valid.toRows.get k = Option.none := (Rows.get_eq_none_iff _ _).mpr
      fun row member => by
        rw [show valid.toRows.list = [] from rows_of_no_leaf none] at member
        exact nomatch member
    rw [empty, get, leafFor, none]
    rfl
  · obtain ⟨before, leaf, after, parts, place, below, above⟩ := leafIndex_spec valid k none
    have held : leaf ∈ index.leaves := parts ▸ mem_append_right _ mem_cons_self
    have stretch : valid.toRows.get k = (⟨leaf, leaf_ordered valid held⟩ : Rows key).get k :=
      Rows.get_stretch below above (rows_parts parts)
    have found : index.leafFor key k = some leaf := by
      rw [leafFor, place, parts, getElem?_append_right le_rfl, Nat.sub_self]
      rfl
    rw [stretch, get, found, Option.bind_some, binarySearch_eq ⟨leaf, leaf_ordered valid held⟩]
    cases here : (⟨leaf, leaf_ordered valid held⟩ : Rows key).get k with
    | none => rfl
    | some row =>
      have placed := (⟨leaf, leaf_ordered valid held⟩ : Rows key).get_place k
      rw [here] at placed
      exact (Option.filter_eq_some_iff.mp placed.symm).1

end

section

variable [LinearOrder K] {key : V → K} {replacement : Option V}

private theorem editLeaf_eq (stretch : Rows key) {k : K}
    (keyed : ∀ row ∈ replacement, key row = k) :
    editLeaf key stretch.list k replacement = (stretch.put k replacement).list := by
  rw [Rows.put_list keyed stretch]
  unfold editLeaf
  rw [binarySearch_eq]
  cases stretch.get k <;> cases replacement <;> rfl

private theorem editLeaf_length (leaf : List V) (k : K) (replacement : Option V) :
    (editLeaf key leaf k replacement).length ≤ leaf.length + 1 := by
  unfold editLeaf
  split
  · rw [length_set]
    exact Nat.le_succ _
  · exact (length_eraseIdx_le _ _).trans (Nat.le_succ _)
  · rw [length_insertIdx]
    split
    · exact le_rfl
    · exact Nat.le_succ _
  · exact Nat.le_succ _

omit [LinearOrder K] in
private theorem putLeaf_spec (before after : List (List V)) (old leaf : List V) :
    (putLeaf (before ++ old :: after) before.length leaf).flatten =
        before.flatten ++ (leaf ++ after.flatten) ∧
      ∀ other ∈ putLeaf (before ++ old :: after) before.length leaf,
        other ∈ before ∨ other ∈ after ∨
          (other ≠ [] ∧ (leaf.length ≤ leafMax + 1 → other.length ≤ leafMax)) := by
  rw [putLeaf]
  split
  · rename_i empty
    obtain rfl := List.isEmpty_iff.mp empty
    rw [eraseIdx_append_of_length_le le_rfl, Nat.sub_self, eraseIdx_cons_zero]
    refine ⟨by rw [flatten_append, nil_append], fun other member => ?_⟩
    exact (mem_append.mp member).imp_right .inl
  · rename_i filled
    rw [List.isEmpty_iff] at filled
    rw [List.set_append_right _ _ le_rfl, List.set_append_right _ _ le_rfl, Nat.sub_self,
      List.set_cons_zero, List.set_cons_zero]
    split
    · rename_i large
      have placed := Rows.insertIdx_length (before ++ [leaf.take leafTarget]) after
        (leaf.drop leafTarget)
      simp only [append_assoc, singleton_append, length_append, length_singleton] at placed
      rw [placed]
      constructor
      · rw [flatten_append, flatten_cons, flatten_cons, ← append_assoc (leaf.take _),
          take_append_drop]
      · intro other member
        have front := length_take (i := leafTarget) (l := leaf)
        have back := length_drop (i := leafTarget) (l := leaf)
        simp only [leafMax, leafTarget] at large member front back ⊢
        grind
    · rename_i small
      refine ⟨by rw [flatten_append, flatten_cons], fun other member => ?_⟩
      grind

private theorem updated_spec {index : PackedIndex V} (valid : index.Valid key) {k : K}
    (keyed : ∀ row ∈ replacement, key row = k) :
    ∃ next : (index.updated key k replacement).Valid key,
      next.toRows = valid.toRows.put k replacement := by
  by_cases none : index.leaves = []
  · have start : index.updated key k replacement = fromSorted replacement.toList := by
      rw [updated, none]
      rfl
    have blank : valid.toRows = .empty := by
      have same : index.rows = [] := rows_of_no_leaf none
      simp only [Valid.toRows, same, Rows.empty]
    rw [start, blank]
    cases replacement with
    | none => exact ⟨fromSorted_valid .nil, rfl⟩
    | some row => exact ⟨fromSorted_valid (pairwise_singleton _ _), rfl⟩
  · obtain ⟨before, leaf, after, parts, place, below, above⟩ := leafIndex_spec valid k none
    have held : leaf ∈ index.leaves := parts ▸ mem_append_right _ mem_cons_self
    let stretch : Rows key := ⟨leaf, leaf_ordered valid held⟩
    have found : index.leaves[leafIndex key index.leaves k]? = some leaf := by
      rw [place, parts, getElem?_append_right le_rfl, Nat.sub_self]
      rfl
    have edited := editLeaf_eq stretch keyed
    obtain ⟨joined, sized⟩ := putLeaf_spec before after leaf (editLeaf key leaf k replacement)
    have leaves : (index.updated key k replacement).leaves =
        putLeaf (before ++ leaf :: after) before.length (editLeaf key leaf k replacement) := by
      rw [updated, found]
      rw [place, parts]
    have rowsEq : (index.updated key k replacement).rows = (valid.toRows.put k replacement).list := by
      rw [rows, leaves, joined, show editLeaf key leaf k replacement = _ from edited]
      exact (Rows.put_list_stretch keyed below above (rows_parts parts)).symm
    have kept : ∀ other ∈ (index.updated key k replacement).leaves,
        other ≠ [] ∧ other.length ≤ leafMax := by
      intro other member
      rw [leaves] at member
      rcases sized other member with early | behind | new
      · have old : other ∈ index.leaves := parts ▸ mem_append_left _ early
        exact ⟨valid.filled other old, valid.bounded other old⟩
      · have old : other ∈ index.leaves := parts ▸ mem_append_right _ (mem_cons_of_mem _ behind)
        exact ⟨valid.filled other old, valid.bounded other old⟩
      · exact ⟨new.1, new.2 ((editLeaf_length leaf k replacement).trans
          (Nat.succ_le_succ (valid.bounded leaf held)))⟩
    refine ⟨⟨fun other member => (kept other member).1, fun other member => (kept other member).2,
      ?_, ?_⟩, ?_⟩
    · rw [rowsEq]
      exact (valid.toRows.put k replacement).ordered
    · rw [updated, found]
      rw [rows, length_flatten]
    · simp only [Valid.toRows, rowsEq]

section

variable {index : PackedIndex V} (valid : index.Valid key) {k : K} {replacement : Option V}
  (keyed : ∀ row ∈ replacement, key row = k)

include valid

private theorem mem_rows_iff (row : V) : row ∈ index.rows ↔ index.get key (key row) = some row := by
  rw [get_eq valid]
  exact valid.toRows.mem_iff row

theorem key_of_get {row : V} (found : index.get key k = some row) : row ∈ index.rows ∧ key row = k := by
  rw [get_eq valid] at found
  exact (Rows.get_eq_some_iff _ _ _).mp found

include keyed

theorem updated_valid : (index.updated key k replacement).Valid key :=
  (updated_spec valid keyed).elim fun next _ => next

theorem get_updated (other : K) : (index.updated key k replacement).get key other =
    if other = k then replacement else index.get key other := by
  obtain ⟨next, rows⟩ := updated_spec valid keyed
  rw [get_eq next, rows, Rows.get_put keyed _, get_eq valid]

theorem mem_updated {row : V} (member : row ∈ (index.updated key k replacement).rows) :
    row ∈ replacement ∨ row ∈ index.rows := by
  rw [mem_rows_iff (updated_valid valid keyed), get_updated valid keyed] at member
  split at member
  · exact .inl member
  · exact .inr ((mem_rows_iff valid row).mpr member)

theorem rows_updated : (index.updated key k replacement).rows =
    (valid.toRows.put k replacement).list := by
  obtain ⟨next, rows⟩ := updated_spec valid keyed
  exact congrArg Rows.list rows

theorem sum_updated (term : V → ℕ) : ((index.updated key k replacement).rows.map term).sum =
    (index.rows.map term).sum - (index.get key k).elim 0 term + replacement.elim 0 term := by
  rw [rows_updated valid keyed, Rows.sum_put keyed valid.toRows term, get_eq valid]
  rfl

end

theorem get_fromSorted (rows : Rows key) (k : K) : (fromSorted rows.list).get key k = rows.get k := by
  have valid : (fromSorted rows.list).Valid key := fromSorted_valid rows.ordered
  have same : valid.toRows = rows := by simp only [Valid.toRows, rows_fromSorted]
  rw [get_eq valid, same]

end

end PackedIndex

end SolidChecker.Retained
