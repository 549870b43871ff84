/- digest: Rows in strict key order, looked up by key, and two such lists walked side by side. -/

import Mathlib.Algebra.BigOperators.Group.Finset.Basic
import Mathlib.Algebra.GroupWithZero.Nat

namespace SolidChecker.Foundation

open List

structure Rows {K V : Type*} [LinearOrder K] (key : V → K) where
  list : List V
  ordered : list.Pairwise fun a b => key a < key b

namespace Rows

variable {K A B C V : Type*} [LinearOrder K] {key : V → K}

def empty : Rows key := ⟨[], List.Pairwise.nil⟩

variable (rows : Rows key)

def get (k : K) : Option V := rows.list.find? fun row => decide (key row = k)

section

variable {list : List V} (ordered : list.Pairwise fun a b => key a < key b)
include ordered

private theorem keys_apart :
    (list.map key).Nodup := pairwise_map.mpr (ordered.imp fun below => ne_of_lt below)

private theorem find_iff (k : K) (v : V) :
    (list.find? fun row => key row = k) = some v ↔ v ∈ list ∧ key v = k := by
  constructor
  · intro found
    exact ⟨mem_of_find?_eq_some found, by simpa using find?_some found⟩
  · rintro ⟨member, rfl⟩
    cases found : list.find? fun row => decide (key row = key v) with
    | none => exact absurd (decide_eq_true rfl) (find?_eq_none.mp found v member)
    | some other =>
      have same : key other = key v := by simpa using find?_some found
      rw [inj_on_of_nodup_map (keys_apart ordered) (mem_of_find?_eq_some found) member same]

end

theorem get_eq_some_iff (k : K) (v : V) :
    rows.get k = some v ↔ v ∈ rows.list ∧ key v = k := find_iff rows.ordered k v

theorem mem_iff (v : V) : v ∈ rows.list ↔ rows.get (key v) = some v := by
  rw [get_eq_some_iff]
  exact ⟨fun member => ⟨member, rfl⟩, And.left⟩

theorem key_of_get {rows : Rows key} {k : K} {v : V} (found : rows.get k = some v) : key v = k :=
  ((rows.get_eq_some_iff k v).mp found).2

theorem get_eq_none_iff (k : K) : rows.get k = none ↔ ∀ v ∈ rows.list, key v ≠ k := by
  rw [Option.eq_none_iff_forall_not_mem]
  constructor
  · rintro absent v member rfl
    exact absent v ((rows.mem_iff v).mp member)
  · rintro absent v found
    obtain ⟨member, same⟩ := (rows.get_eq_some_iff k v).mp found
    exact absent v member same

theorem eq_of_mem_iff {left right : List V} (leftOrdered : left.Pairwise fun a b => key a < key b)
    (rightOrdered : right.Pairwise fun a b => key a < key b)
    (same : ∀ v, v ∈ left ↔ v ∈ right) : left = right := by
  have apart : left.Perm right := (perm_ext_iff_of_nodup (keys_apart leftOrdered).of_map
    (keys_apart rightOrdered).of_map).mpr same
  exact apart.eq_of_pairwise (fun a b _ _ below above => absurd below (lt_asymm above)) leftOrdered
    rightOrdered

theorem map_eq_of_get {W : Type*} {left right : Rows key} (view : V → W) (keyW : W → K)
    (keyed : ∀ v, keyW (view v) = key v)
    (same : ∀ k, (left.get k).map view = (right.get k).map view) :
    left.list.map view = right.list.map view := by
  have mapped : ∀ rows : Rows key, (rows.list.map view).Pairwise fun a b => keyW a < keyW b := by
    intro rows
    refine pairwise_map.mpr (rows.ordered.imp fun below => ?_)
    rwa [keyed, keyed]
  have member : ∀ (rows : Rows key) (w : W),
      w ∈ rows.list.map view ↔ (rows.get (keyW w)).map view = some w := by
    intro rows w
    rw [mem_map, Option.map_eq_some_iff]
    constructor
    · rintro ⟨v, held, rfl⟩
      exact ⟨v, by rw [keyed]; exact (rows.mem_iff v).mp held, rfl⟩
    · rintro ⟨v, found, rfl⟩
      exact ⟨v, ((rows.get_eq_some_iff _ v).mp found).1, rfl⟩
  refine eq_of_mem_iff (mapped left) (mapped right) fun w => ?_
  rw [member left, member right, same]

def keys : List K := rows.list.map key

theorem mem_keys_iff (k : K) : k ∈ rows.keys ↔ ∃ v, rows.get k = some v := by
  simp only [keys, mem_map, get_eq_some_iff]

theorem keys_nodup : rows.keys.Nodup := keys_apart rows.ordered

section

private def insertRow (key : V → K) (row : V) : List V → List V
  | [] => [row]
  | head :: tail =>
    if key row < key head then row :: head :: tail
    else if key row = key head then row :: tail
    else head :: insertRow key row tail

variable (row : V) {list : List V} (ordered : list.Pairwise fun a b => key a < key b)
include ordered

private theorem mem_insertRow (v : V) :
    v ∈ insertRow key row list ↔ v = row ∨ v ∈ list ∧ key v ≠ key row := by
  induction list with
  | nil => simp [insertRow]
  | cons head tail ih =>
    obtain ⟨above, tail_ordered⟩ := pairwise_cons.mp ordered
    have later := above v
    rw [insertRow]
    rcases lt_trichotomy (key row) (key head) with below | equal | higher
    · rw [if_pos below]
      grind
    · rw [if_neg (not_lt.mpr equal.ge), if_pos equal]
      grind
    · rw [if_neg (lt_asymm higher), if_neg (ne_of_gt higher)]
      grind

private theorem insertRow_ordered : (insertRow key row list).Pairwise fun a b => key a < key b := by
  induction list with
  | nil => exact pairwise_singleton _ _
  | cons head tail ih =>
    obtain ⟨above, tail_ordered⟩ := pairwise_cons.mp ordered
    rw [insertRow]
    rcases lt_trichotomy (key row) (key head) with below | equal | higher
    · rw [if_pos below]
      exact pairwise_cons.mpr ⟨forall_mem_cons.mpr ⟨below, fun v later =>
        below.trans (above v later)⟩, ordered⟩
    · rw [if_neg (not_lt.mpr equal.ge), if_pos equal]
      exact pairwise_cons.mpr ⟨fun v member => equal ▸ above v member, tail_ordered⟩
    · rw [if_neg (lt_asymm higher), if_neg (ne_of_gt higher)]
      refine pairwise_cons.mpr ⟨fun v member => ?_, ih tail_ordered⟩
      rcases (mem_insertRow row tail_ordered v).mp member with rfl | ⟨later, -⟩
      · exact higher
      · exact above v later

omit ordered

def insert (rows : Rows key) : Rows key :=
  ⟨insertRow key row rows.list, insertRow_ordered row rows.ordered⟩

def erase (k : K) (rows : Rows key) : Rows key :=
  ⟨rows.list.filter fun row => decide (key row ≠ k), rows.ordered.filter _⟩

theorem get_insert (rows : Rows key) (k : K) :
    (rows.insert row).get k = if k = key row then some row else rows.get k := by
  refine Option.ext fun v => ?_
  rw [get_eq_some_iff, insert, mem_insertRow row rows.ordered]
  split
  · grind
  · rw [get_eq_some_iff]
    grind

theorem get_erase (rows : Rows key) (gone k : K) :
    (rows.erase gone).get k = if k = gone then none else rows.get k := by
  refine Option.ext fun v => ?_
  rw [get_eq_some_iff, erase, mem_filter]
  simp only [decide_eq_true_eq]
  split
  · rename_i same
    simp only [reduceCtorEq, iff_false]
    rintro ⟨⟨-, differ⟩, found⟩
    exact differ (found.trans same)
  · rename_i differ
    rw [get_eq_some_iff]
    constructor
    · rintro ⟨⟨member, -⟩, found⟩
      exact ⟨member, found⟩
    · rintro ⟨member, found⟩
      exact ⟨⟨member, fun equal => differ (found.symm.trans equal)⟩, found⟩

end

section

def place (key : V → K) (list : List V) (k : K) : ℕ :=
  (list.takeWhile fun row => decide (key row < k)).length

variable {k : K} {rows : Rows key} {before after : List V} {replacement : Option V}

theorem split (rows : Rows key) (k : K) :
    ∃ before after, rows.list = before ++ ((rows.get k).toList ++ after) ∧
      (∀ v ∈ before, key v < k) ∧ ∀ v ∈ after, k < key v := by
  obtain ⟨list, ordered⟩ := rows
  induction list with
  | nil => exact ⟨[], [], rfl, forall_mem_nil _, forall_mem_nil _⟩
  | cons head tail ih =>
    obtain ⟨above, tailOrdered⟩ := pairwise_cons.mp ordered
    rcases lt_trichotomy (key head) k with below | same | beyond
    · obtain ⟨before, after, parts, low, high⟩ := ih tailOrdered
      have later : get ⟨head :: tail, ordered⟩ k = get ⟨tail, tailOrdered⟩ k :=
        find?_cons_of_neg (by simpa only [decide_eq_true_eq] using ne_of_lt below)
      refine ⟨head :: before, after, ?_, forall_mem_cons.mpr ⟨below, low⟩, high⟩
      rw [later, cons_append]
      exact congrArg (head :: ·) parts
    · have found : get ⟨head :: tail, ordered⟩ k = some head :=
        find?_cons_of_pos (by simpa only [decide_eq_true_eq] using same)
      refine ⟨[], tail, ?_, forall_mem_nil _, fun v member => same ▸ above v member⟩
      rw [found]
      rfl
    · have later : ∀ v ∈ head :: tail, k < key v :=
        forall_mem_cons.mpr ⟨beyond, fun v rest => beyond.trans (above v rest)⟩
      have absent : get ⟨head :: tail, ordered⟩ k = none :=
        (get_eq_none_iff _ k).mpr fun v member => ne_of_gt (later v member)
      refine ⟨[], head :: tail, ?_, forall_mem_nil _, later⟩
      rw [absent]
      rfl

def put (k : K) (replacement : Option V) (rows : Rows key) : Rows key :=
  match replacement with
  | some row => rows.insert row
  | none => rows.erase k

variable (keyed : ∀ row ∈ replacement, key row = k)

include keyed in
theorem get_put (rows : Rows key) (other : K) :
    (rows.put k replacement).get other = if other = k then replacement else rows.get other := by
  cases replacement with
  | none => exact rows.get_erase k other
  | some row =>
    rw [put, get_insert, keyed row rfl]

section

variable (below : ∀ v ∈ before, key v < k) (above : ∀ v ∈ after, k < key v)
include below above

private theorem place_split (parts : rows.list = before ++ ((rows.get k).toList ++ after)) :
    place key rows.list k = before.length := by
  rw [place, parts, takeWhile_append_of_pos (by simpa using below), length_append]
  cases held : rows.get k with
  | some row => simp [key_of_get held]
  | none =>
    cases after with
    | nil => rfl
    | cons head tail => simp [(above head mem_cons_self).le]

variable {stretch : Rows key}

theorem get_stretch (parts : rows.list = before ++ (stretch.list ++ after)) :
    rows.get k = stretch.get k := by
  refine Option.ext fun v => ?_
  rw [get_eq_some_iff, get_eq_some_iff, parts, mem_append, mem_append]
  constructor
  · rintro ⟨first | second | third, found⟩
    · exact absurd found (ne_of_lt (below v first))
    · exact ⟨second, found⟩
    · exact absurd found (ne_of_gt (above v third))
  · rintro ⟨member, found⟩
    exact ⟨.inr (.inl member), found⟩

include keyed

theorem put_list_split (parts : rows.list = before ++ ((rows.get k).toList ++ after)) :
    (rows.put k replacement).list = before ++ (replacement.toList ++ after) := by
  have ordered : (before ++ (replacement.toList ++ after)).Pairwise fun a b => key a < key b := by
    have old := parts ▸ rows.ordered
    cases replacement with
    | none => grind
    | some row => grind
  refine eq_of_mem_iff (rows.put k replacement).ordered ordered fun v => ?_
  have held := rows.mem_iff v
  rw [parts] at held
  rw [mem_iff, get_put keyed rows]
  simp only [mem_append, Option.mem_toList] at held ⊢
  split
  · rename_i here
    constructor
    · exact fun new => .inr (.inl new)
    · rintro (low | new | high)
      · exact absurd here (ne_of_lt (below v low))
      · exact new
      · exact absurd here (ne_of_gt (above v high))
  · rename_i elsewhere
    have old : rows.get k ≠ some v := fun found => elsewhere (key_of_get found)
    have new : replacement ≠ some v := fun found => elsewhere (keyed v found)
    rw [← held, or_iff_right old, or_iff_right new]

theorem put_list_stretch (parts : rows.list = before ++ (stretch.list ++ after)) :
    (rows.put k replacement).list = before ++ ((stretch.put k replacement).list ++ after) := by
  obtain ⟨low, high, inner, under, beyond⟩ := stretch.split k
  have whole : rows.list = (before ++ low) ++ ((rows.get k).toList ++ (high ++ after)) := by
    rw [parts, get_stretch below above parts, inner]
    simp only [append_assoc]
  rw [put_list_split keyed (forall_mem_append.mpr ⟨below, under⟩)
    (forall_mem_append.mpr ⟨beyond, above⟩) whole, put_list_split keyed under beyond inner]
  simp only [append_assoc]

end

theorem insertIdx_length (before after : List V) (row : V) :
    (before ++ after).insertIdx before.length row = before ++ row :: after := by
  induction before with
  | nil => rfl
  | cons head before ih => rw [cons_append, length_cons, insertIdx_succ_cons, ih, cons_append]

theorem get_place (rows : Rows key) (k : K) : rows.get k =
    (rows.list[place key rows.list k]?).filter fun row => key row = k := by
  obtain ⟨before, after, parts, below, above⟩ := rows.split k
  rw [place_split below above parts]
  conv_rhs => rw [parts, getElem?_append_right le_rfl, Nat.sub_self]
  cases held : rows.get k with
  | some row =>
    refine (Option.filter_eq_some_iff.mpr ⟨rfl, ?_⟩).symm
    exact decide_eq_true (key_of_get held)
  | none =>
    cases after with
    | nil => rfl
    | cons head tail =>
      refine (Option.filter_eq_none_iff.mpr fun row first => ?_).symm
      obtain rfl : head = row := by simpa using first
      simpa using ne_of_gt (above head mem_cons_self)

include keyed in
theorem put_list (rows : Rows key) :
    (rows.put k replacement).list = match rows.get k, replacement with
      | some _, some row => rows.list.set (place key rows.list k) row
      | some _, none => rows.list.eraseIdx (place key rows.list k)
      | none, some row => rows.list.insertIdx (place key rows.list k) row
      | none, none => rows.list := by
  obtain ⟨before, after, parts, below, above⟩ := rows.split k
  rw [put_list_split keyed below above parts, place_split below above parts]
  generalize rows.get k = held at parts
  rw [parts]
  cases held with
  | none =>
    cases replacement with
    | none => rfl
    | some row => exact (insertIdx_length before after row).symm
  | some previous =>
    cases replacement with
    | none => simp [eraseIdx_append_of_length_le]
    | some row => simp

private theorem sum_toList (row : Option V) (term : V → ℕ) :
    (row.toList.map term).sum = row.elim 0 term := by
  cases row with
  | none => rfl
  | some row => simp only [Option.toList, map_cons, map_nil, sum_singleton, Option.elim]

include keyed in
theorem sum_put (rows : Rows key) (term : V → ℕ) : ((rows.put k replacement).list.map term).sum =
      (rows.list.map term).sum - (rows.get k).elim 0 term + replacement.elim 0 term := by
  obtain ⟨before, after, parts, below, above⟩ := rows.split k
  rw [put_list_split keyed below above parts, parts]
  simp only [map_append, sum_append, sum_toList]
  omega

end

inductive Aligned (A B : Type*)
  | left (row : A)
  | right (row : B)
  | both (first : A) (second : B)

namespace Aligned

def pair : Option A → Option B → Option (Aligned A B)
  | some first, some second => some (.both first second)
  | some first, none => some (.left first)
  | none, some second => some (.right second)
  | none, none => none

def first : Option (Aligned A B) → Option A
  | some (.left row) | some (.both row _) => some row
  | _ => none

def second : Option (Aligned A B) → Option B
  | some (.right row) | some (.both _ row) => some row
  | _ => none

def place (keyA : A → K) (keyB : B → K) : Aligned A B → K
  | .left row => keyA row
  | .right row => keyB row
  | .both first _ => keyA first

end Aligned

section

variable (keyA : A → K) (keyB : B → K)

private def alignRow (row : A) (rest : List B → List (Aligned A B)) : List B → List (Aligned A B)
  | [] => .left row :: rest []
  | other :: others =>
    if keyA row = keyB other then .both row other :: rest others
    else if keyA row < keyB other then .left row :: rest (other :: others)
    else .right other :: alignRow row rest others

def align : List A → List B → List (Aligned A B)
  | [], others => others.map .right
  | row :: rows, others => alignRow keyA keyB row (align rows) others

variable {k : K}

private theorem align_bound (rows : List A) (others : List B) (first : ∀ v ∈ rows, k < keyA v)
    (second : ∀ v ∈ others, k < keyB v) :
    ∀ entry ∈ align keyA keyB rows others, k < entry.place keyA keyB := by
  induction rows generalizing others with
  | nil =>
    intro entry member
    obtain ⟨other, within, rfl⟩ := mem_map.mp member
    exact second other within
  | cons row rows ih =>
    have tail := fun others => ih others fun v later => first v (mem_cons_of_mem _ later)
    have head : k < keyA row := first row mem_cons_self
    induction others with
    | nil =>
      intro entry member
      rcases mem_cons.mp member with rfl | later
      · exact head
      · exact tail [] second entry later
    | cons other others ihOthers =>
      have later := fun v within => second v (mem_cons_of_mem other within)
      intro entry member
      simp only [align, alignRow] at member
      split at member
      · rcases mem_cons.mp member with rfl | within
        · exact head
        · exact tail others later entry within
      split at member
      · rcases mem_cons.mp member with rfl | within
        · exact head
        · exact tail (other :: others) second entry within
      · rcases mem_cons.mp member with rfl | within
        · exact second other mem_cons_self
        · exact ihOthers later entry within

private theorem find_beyond {list : List V} (beyond : ∀ v ∈ list, k < key v) :
    (list.find? fun v => key v = k) = none := by
  refine find?_eq_none.mpr fun v member => ?_
  simp only [decide_eq_true_eq]
  exact ne_of_gt (beyond v member)

private theorem find_cons {V : Type*} (key : V → K) (head : V) (tail : List V) :
    ((head :: tail).find? fun v => key v = k) =
      if key head = k then some head else tail.find? fun v => key v = k := by
  rw [find?_cons]
  by_cases same : key head = k <;> simp only [same, decide_true, decide_false, if_true, if_false]

section

variable (rows : List A) (others : List B) (first : rows.Pairwise fun a b => keyA a < keyA b)
  (second : others.Pairwise fun a b => keyB a < keyB b)
include first second

private theorem align_ordered : (align keyA keyB rows others).Pairwise
      fun a b => a.place keyA keyB < b.place keyA keyB := by
  induction rows generalizing others with
  | nil => exact pairwise_map.mpr second
  | cons row rows ih =>
    obtain ⟨above, rowsOrdered⟩ := pairwise_cons.mp first
    induction others with
    | nil =>
      exact pairwise_cons.mpr
        ⟨align_bound keyA keyB rows [] above (fun _ absent => absurd absent not_mem_nil),
          ih [] rowsOrdered second⟩
    | cons other others ihOthers =>
      obtain ⟨higher, othersOrdered⟩ := pairwise_cons.mp second
      simp only [align, alignRow]
      split
      · rename_i same
        exact pairwise_cons.mpr ⟨align_bound keyA keyB rows others above fun v member => by
            rw [Aligned.place, same]
            exact higher v member, ih others rowsOrdered othersOrdered⟩
      split
      · rename_i below
        refine pairwise_cons.mpr ⟨align_bound keyA keyB rows _ above fun v member => ?_,
          ih _ rowsOrdered second⟩
        rcases mem_cons.mp member with rfl | later
        · exact below
        · exact below.trans (higher v later)
      · rename_i differ notBelow
        have beyond : keyB other < keyA row :=
          lt_of_le_of_ne (not_lt.mp notBelow) (Ne.symm differ)
        refine pairwise_cons.mpr ⟨?_, ihOthers othersOrdered⟩
        refine align_bound keyA keyB (row :: rows) others (fun v member => ?_) higher
        rcases mem_cons.mp member with rfl | later
        · exact beyond
        · exact beyond.trans (above v later)

private theorem find_align (k : K) :
    ((align keyA keyB rows others).find? fun entry => entry.place keyA keyB = k) =
      Aligned.pair (rows.find? fun v => keyA v = k) (others.find? fun v => keyB v = k) := by
  induction rows generalizing others with
  | nil =>
    clear second
    induction others with
    | nil => rfl
    | cons other others ih =>
      simp only [align, map_cons] at ih ⊢
      rw [find_cons (Aligned.place keyA keyB), find_cons keyB, ih, Aligned.place]
      split <;> rfl
  | cons row rows ih =>
    obtain ⟨above, rowsOrdered⟩ := pairwise_cons.mp first
    induction others with
    | nil =>
      simp only [align, alignRow]
      rw [find_cons (Aligned.place keyA keyB), find_cons keyA, ih [] rowsOrdered second,
        Aligned.place]
      split <;> rfl
    | cons other others ihOthers =>
      obtain ⟨higher, othersOrdered⟩ := pairwise_cons.mp second
      simp only [align, alignRow]
      split
      · rename_i equal
        rw [find_cons (Aligned.place keyA keyB), find_cons keyA, find_cons keyB,
          ih others rowsOrdered othersOrdered, Aligned.place, ← equal]
        split <;> rfl
      split
      · rename_i below
        rw [find_cons (Aligned.place keyA keyB), find_cons keyA, ih _ rowsOrdered second,
          Aligned.place]
        split
        · rename_i same
          rw [find_beyond (forall_mem_cons.mpr ⟨same ▸ below, fun v later =>
            same ▸ below.trans (higher v later)⟩)]
          rfl
        · rfl
      · rename_i differ notBelow
        have beyond : keyB other < keyA row :=
          lt_of_le_of_ne (not_lt.mp notBelow) (Ne.symm differ)
        rw [find_cons (Aligned.place keyA keyB), find_cons keyB other, Aligned.place]
        split
        · rename_i same
          rw [find_beyond (forall_mem_cons.mpr ⟨same ▸ beyond, fun v later =>
            same ▸ beyond.trans (above v later)⟩)]
          rfl
        · exact ihOthers othersOrdered

end

end

section

variable {keyA : A → K} {keyB : B → K} {keyC : C → K}

def both (left : Rows keyA) (right : Rows keyB) (k : K) : Option (Aligned A B) :=
  Aligned.pair (left.get k) (right.get k)

variable {left : Rows keyA} {right : Rows keyB}

theorem place_of_both {k : K} {entry : Aligned A B} (found : left.both right k = some entry) :
    entry.place keyA keyB = k := by
  unfold both at found
  cases first : left.get k <;> cases second : right.get k <;> rw [first, second] at found <;>
    cases found
  · exact (key_of_get second : keyB _ = k)
  · exact (key_of_get first : keyA _ = k)
  · exact (key_of_get first : keyA _ = k)

theorem gets_of_both {k : K} {entry : Option (Aligned A B)} (found : left.both right k = entry) :
    left.get k = Aligned.first entry ∧ right.get k = Aligned.second entry := by
  rw [← found, both]
  cases left.get k <;> cases right.get k <;> exact ⟨rfl, rfl⟩

variable (left right)

theorem mem_align_iff (entry : Aligned A B) : entry ∈ align keyA keyB left.list right.list ↔
      left.both right (entry.place keyA keyB) = some entry := by
  have ordered := align_ordered keyA keyB left.list right.list left.ordered right.ordered
  rw [both, get, get, ← find_align keyA keyB _ _ left.ordered right.ordered, find_iff ordered]
  exact ⟨fun member => ⟨member, rfl⟩, And.left⟩

section

variable (change : Aligned A B → Option C)
  (keyed : ∀ k entry, left.both right k = some entry → ∀ row, change entry = some row →
    keyC row = k)

include keyed in
private theorem merge_ordered : ((align keyA keyB left.list right.list).filterMap change).Pairwise
      fun a b => keyC a < keyC b := by
  refine pairwise_filterMap.mpr ?_
  have ordered := align_ordered keyA keyB left.list right.list left.ordered right.ordered
  refine ordered.imp_of_mem fun inFirst inSecond below row first other second => ?_
  rw [keyed _ _ ((mem_align_iff left right _).mp inFirst) row first,
    keyed _ _ ((mem_align_iff left right _).mp inSecond) other second]
  exact below

def merge : Rows keyC :=
  ⟨(align keyA keyB left.list right.list).filterMap change, merge_ordered left right change keyed⟩

theorem get_merge (k : K) :
    (merge left right change keyed).get k = (left.both right k).bind change := by
  refine Option.ext fun row => ?_
  rw [get_eq_some_iff, merge, mem_filterMap, Option.bind_eq_some_iff]
  constructor
  · rintro ⟨⟨entry, member, changed⟩, rfl⟩
    have found := (mem_align_iff left right entry).mp member
    rw [keyed _ entry found row changed]
    exact ⟨entry, found, changed⟩
  · rintro ⟨entry, found, changed⟩
    refine ⟨⟨entry, ?_, changed⟩, keyed k entry found row changed⟩
    rw [mem_align_iff, place_of_both found]
    exact found

end

variable (differ : Aligned A B → Bool)

def keysWhere : List K :=
  ((align keyA keyB left.list right.list).filter differ).map (Aligned.place keyA keyB)

theorem keysWhere_ordered : (keysWhere left right differ).Pairwise (· < ·) :=
  pairwise_map.mpr ((align_ordered keyA keyB _ _ left.ordered right.ordered).filter _)

theorem mem_keysWhere_iff (k : K) : k ∈ keysWhere left right differ ↔
      ∃ entry, left.both right k = some entry ∧ differ entry := by
  simp only [keysWhere, mem_map, mem_filter, mem_align_iff]
  constructor
  · rintro ⟨entry, ⟨found, differs⟩, rfl⟩
    exact ⟨entry, found, differs⟩
  · rintro ⟨entry, found, differs⟩
    have placed := place_of_both found
    exact ⟨entry, ⟨placed.symm ▸ found, differs⟩, placed⟩

variable {left right differ} in
theorem keysWhere_eq {A' B' : Type*} {keyA' : A' → K} {keyB' : B' → K} {left' : Rows keyA'}
    {right' : Rows keyB'} {differ' : Aligned A' B' → Bool}
    (same : ∀ k, (∃ entry, left.both right k = some entry ∧ differ entry) ↔
      ∃ entry, left'.both right' k = some entry ∧ differ' entry) :
    keysWhere left right differ = keysWhere left' right' differ' := by
  have first : (keysWhere left right differ).Pairwise fun a b => id a < id b :=
    keysWhere_ordered left right differ
  have second : (keysWhere left' right' differ').Pairwise fun a b => id a < id b :=
    keysWhere_ordered left' right' differ'
  apply eq_of_mem_iff first second
  intro k
  rw [mem_keysWhere_iff, mem_keysWhere_iff, same]

end

end Rows

end SolidChecker.Foundation
