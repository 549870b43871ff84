/- source: apps/solid-typefacts/src/references.rs -/

import SolidChecker.Foundation.Interning
import SolidChecker.Foundation.Table
import SolidChecker.Producer.Path
import Mathlib.Data.List.Sort
import Mathlib.Tactic.IntervalCases

namespace SolidChecker.Passes

open Foundation Producer List Option Function

structure Span where
  start : ℕ
  stop : ℕ
deriving DecidableEq, Repr

structure Group where
  id : String
  spans : List Span
deriving DecidableEq, Repr

/-- What a file adds to the index: one group of spans in byte order for each symbol, and the value
and the type bit of each symbol it refers to. -/
structure FileReferences where
  refs : List Group
  spaces : List (String × ℕ)
  grouped : (refs.map Group.id).Nodup
  ordered : ∀ group ∈ refs, group.spans.Pairwise fun first second => first.start ≤ second.start
  spaced : (spaces.map Prod.fst).Nodup
  narrow : ∀ entry ∈ spaces, entry.2 < 4

structure Indexed where
  path : ℕ
  start : ℕ
  stop : ℕ
deriving DecidableEq, Repr

structure Location where
  path : Path
  start : ℕ
  stop : ℕ
deriving DecidableEq, Repr

inductive ReferenceSpace where
  | neither
  | value
  | type
  | both
deriving DecidableEq, Repr

structure PassIndex where
  merged : Finmap fun _ : String => List Indexed
  spaces : Finmap fun _ : String => ℕ
  counts : Finmap fun _ : String => ℕ × ℕ
  paths : List Path

namespace PassIndex

def position (paths : List Path) (path : Path) : Option ℕ :=
  if path ∈ paths then some (placeOf paths path) else none

def number (place : ℕ) : ℕ := min place (2 ^ 32 - 1)

def indexed (path : ℕ) (spans : List Span) : List Indexed :=
  spans.map fun span => ⟨path, span.start, span.stop⟩

def addGroup (path : ℕ) (ordered : Bool) (group : Group) (held : Option (List Indexed)) :
    Option (List Indexed) :=
  let bucket := held.getD []
  let spans := indexed path group.spans
  some (if ordered then
    bucket.takeWhile (fun entry => entry.path < path) ++
      (spans ++ bucket.dropWhile fun entry => entry.path < path)
  else bucket ++ spans)

def raise (bit : Bool) (count : ℕ) : ℕ := if bit then (count + 1) % 2 ^ 32 else count

def lower (bit : Bool) (count : ℕ) : ℕ := if bit then count - 1 else count

def addSpace (entry : String × ℕ) (held : Option (ℕ × ℕ) × Option ℕ) :
    Option (ℕ × ℕ) × Option ℕ :=
  let counts := held.1.getD (0, 0)
  (some (raise (entry.2.testBit 0) counts.1, raise (entry.2.testBit 1) counts.2),
    some (held.2.getD 0 ||| entry.2))

def union (counts : ℕ × ℕ) : ℕ :=
  (if 0 < counts.1 then 1 else 0) ||| (if 0 < counts.2 then 2 else 0)

def removeGroup (path : ℕ) (held : Option (List Indexed)) : Option (List Indexed) :=
  held.bind fun bucket =>
    let kept := bucket.filter fun entry => entry.path ≠ path
    if kept = [] then none else some kept

def removeSpace (entry : String × ℕ) (held : Option (ℕ × ℕ) × Option ℕ) :
    Option (ℕ × ℕ) × Option ℕ :=
  match held.1 with
  | none => (none, held.2)
  | some counts =>
    let counts := (lower (entry.2.testBit 0) counts.1, lower (entry.2.testBit 1) counts.2)
    if union counts = 0 ∧ counts = (0, 0) then (none, held.2.map fun _ => 0)
    else (some counts, held.2.map fun _ => union counts)

variable (index : PassIndex)

def add (place : ℕ) (references : FileReferences) (ordered : Bool) : PassIndex :=
  let spaced := references.spaces.foldl (fun tables entry =>
    let next := addSpace entry (tables.1.lookup entry.1, tables.2.lookup entry.1)
    (Table.put tables.1 entry.1 next.1, Table.put tables.2 entry.1 next.2))
    (index.counts, index.spaces)
  { merged := references.refs.foldl (fun merged group => Table.put merged group.id
      (addGroup (number place) ordered group (merged.lookup group.id))) index.merged
    counts := spaced.1
    spaces := spaced.2
    paths := index.paths }

def remove (place : ℕ) (references : FileReferences) : PassIndex :=
  let spaced := references.spaces.foldl (fun tables entry =>
    let next := removeSpace entry (tables.1.lookup entry.1, tables.2.lookup entry.1)
    (Table.put tables.1 entry.1 next.1, Table.put tables.2 entry.1 next.2))
    (index.counts, index.spaces)
  { merged := references.refs.foldl (fun merged group => Table.put merged group.id
      (removeGroup (number place) (merged.lookup group.id))) index.merged
    counts := spaced.1
    spaces := spaced.2
    paths := index.paths }

def byPath (paths : List Path) (contributions : List (Path × FileReferences)) :
    ℕ → Option FileReferences :=
  contributions.foldl (fun places contribution =>
    match position paths contribution.1 with
    | some place => Function.update places place (some contribution.2)
    | none => places) fun _ => none

def addPlace (places : ℕ → Option FileReferences) (index : PassIndex) (place : ℕ) : PassIndex :=
  match places place with
  | some references => index.add place references false
  | none => index

def build (paths : List Path) (contributions : List (Path × FileReferences)) : PassIndex :=
  let paths := paths.mergeSort (· ≤ ·)
  (List.range paths.length).foldl (addPlace (byPath paths contributions)) ⟨∅, ∅, ∅, paths⟩

def patch (path : Path) (old new : Option FileReferences) : Bool × PassIndex :=
  match position index.paths path with
  | none => (false, index)
  | some place =>
    let removed := match old with
      | some references => index.remove place references
      | none => index
    (true, match new with
      | some references => removed.add place references true
      | none => removed)

def locations (id : String) : List Location :=
  if id = "" then []
  else match index.merged.lookup id with
    | none => []
    | some bucket => bucket.map fun entry =>
      ⟨index.paths.getD entry.path [], entry.start, entry.stop⟩

def spaceFromBits : ℕ → ReferenceSpace
  | 1 => .value
  | 2 => .type
  | 3 => .both
  | _ => .neither

def mergedSpace (id : String) : ReferenceSpace :=
  match index.spaces.lookup id with
  | some bits => if bits ≠ 0 then spaceFromBits bits else .neither
  | none => .neither

def replaced (contributions : List (Path × FileReferences)) (path : Path)
    (new : Option FileReferences) : List (Path × FileReferences) :=
  contributions.filter (fun contribution => contribution.1 ≠ path) ++
    (new.map fun references => (path, references)).toList

def contributionOf (contributions : List (Path × FileReferences)) (path : Path) :
    Option FileReferences :=
  (contributions.find? fun contribution => decide (contribution.1 = path)).map Prod.snd

def replace (held : PassIndex × List (Path × FileReferences))
    (replacement : Path × Option FileReferences) : PassIndex × List (Path × FileReferences) :=
  ((held.1.patch replacement.1 (contributionOf held.2 replacement.1) replacement.2).2,
    replaced held.2 replacement.1 replacement.2)

end PassIndex

namespace FileReferences

variable (references : FileReferences) (id : String)

def spansOf : List Span :=
  match references.refs.find? fun group => decide (group.id = id) with
  | some group => group.spans
  | none => []

def bitsOf : ℕ :=
  match references.spaces.find? fun entry => decide (entry.1 = id) with
  | some entry => entry.2
  | none => 0

private theorem spansOf_ordered :
    (references.spansOf id).Pairwise fun first second => first.start ≤ second.start := by
  unfold spansOf
  split
  · rename_i group found
    exact references.ordered group (mem_of_find?_eq_some found)
  · exact .nil

private theorem bitsOf_lt : references.bitsOf id < 4 := by
  unfold bitsOf
  split
  · rename_i entry found
    exact references.narrow entry (mem_of_find?_eq_some found)
  · decide

end FileReferences

namespace PassIndex

/-! ### What an index holds for the contributions at its places -/

variable (places : ℕ → Option FileReferences)

def entriesAt (id : String) (place : ℕ) : List Indexed :=
  match places place with
  | some references => indexed (number place) (references.spansOf id)
  | none => []

def bitAt (id : String) (bit place : ℕ) : Bool :=
  match places place with
  | some references => (references.bitsOf id).testBit bit
  | none => false

def tally (id : String) (bit : ℕ) (among : List ℕ) : ℕ :=
  among.countP (bitAt places id bit)

def Buckets (index : PassIndex) (places : ℕ → Option FileReferences) (among : List ℕ) : Prop :=
  ∀ id, (index.merged.lookup id).getD [] = among.flatMap (entriesAt places id)

def Counted (index : PassIndex) (tallies : String → ℕ × ℕ) : Prop :=
  ∀ id, (index.counts.lookup id).getD (0, 0) = tallies id ∧
    (index.spaces.lookup id).getD 0 = union (tallies id)

def tallies (among : List ℕ) (id : String) : ℕ × ℕ :=
  (tally places id 0 among, tally places id 1 among)

section

variable {index : PassIndex} {places : ℕ → Option FileReferences} {place : ℕ}
  {references : FileReferences}

private theorem lookup_merged_add (index : PassIndex) (place : ℕ) (references : FileReferences)
    (ordered : Bool) (id : String) :
    let bucket := (index.merged.lookup id).getD []
    let spans := indexed (number place) (references.spansOf id)
    ((index.add place references ordered).merged.lookup id).getD [] =
      if ordered then bucket.takeWhile (fun entry => entry.path < number place) ++
        (spans ++ bucket.dropWhile fun entry => entry.path < number place)
      else bucket ++ spans := by
  unfold add FileReferences.spansOf
  dsimp only
  rw [Table.lookup_foldl_put (fun group => addGroup (number place) ordered group)
    references.grouped]
  cases references.refs.find? fun group => decide (group.id = id) with
  | some group => rfl
  | none =>
    cases ordered with
    | true => exact takeWhile_append_dropWhile.symm
    | false => exact (append_nil _).symm

private theorem lookup_merged_remove (index : PassIndex) (place : ℕ) (references : FileReferences)
    (id : String) (absent : references.spansOf id = [] →
      ∀ entry ∈ (index.merged.lookup id).getD [], entry.path ≠ number place) :
    (((index.remove place references).merged.lookup id).getD []) =
      ((index.merged.lookup id).getD []).filter fun entry => entry.path ≠ number place := by
  unfold remove
  dsimp only
  rw [Table.lookup_foldl_put (fun _ => removeGroup (number place)) references.grouped]
  unfold FileReferences.spansOf at absent
  split
  · unfold removeGroup
    cases index.merged.lookup id with
    | none => rfl
    | some bucket =>
      dsimp only [bind_some, getD_some]
      split
      · rename_i emptied
        exact emptied.symm
      · rfl
  · rename_i none
    rw [none] at absent
    refine (filter_eq_self.mpr fun entry member => ?_).symm
    exact decide_eq_true (absent rfl entry member)

private theorem union_or {counts : ℕ × ℕ} {bits : ℕ} (narrow : bits < 4) : union counts ||| bits =
    union (counts.1 + (bits.testBit 0).toNat, counts.2 + (bits.testBit 1).toNat) := by
  obtain ⟨first, second⟩ := counts
  unfold union
  rcases Nat.eq_zero_or_pos first with rfl | one <;> rcases Nat.eq_zero_or_pos second with rfl | two
    <;> interval_cases bits <;> simp [*] <;> decide

private theorem union_eq_zero_of_add {counts : ℕ × ℕ} {first second : ℕ}
    (zero : union (counts.1 + first, counts.2 + second) = 0) : union counts = 0 := by
  unfold union at zero ⊢
  rcases Nat.eq_zero_or_pos counts.1 with one | one <;>
    rcases Nat.eq_zero_or_pos counts.2 with two | two <;>
    simp_all

variable {count : ℕ}

private theorem raise_eq {bit : Bool} (room : count + 1 < 2 ^ 32) :
    raise bit count = count + bit.toNat := by
  cases bit
  · rfl
  · exact Nat.mod_eq_of_lt room

private theorem lower_eq (bit : Bool) (count : ℕ) : lower bit (count + bit.toNat) = count := by
  cases bit <;> rfl

def withBits (tallies : String → ℕ × ℕ) (references : FileReferences) (id : String) : ℕ × ℕ :=
  ((tallies id).1 + ((references.bitsOf id).testBit 0).toNat,
    (tallies id).2 + ((references.bitsOf id).testBit 1).toNat)

private theorem Counted.add {tallies : String → ℕ × ℕ} (counted : Counted index tallies)
    (room : ∀ id, (tallies id).1 + 1 < 2 ^ 32 ∧ (tallies id).2 + 1 < 2 ^ 32) (ordered : Bool) :
    Counted (index.add place references ordered) (withBits tallies references) := by
  intro id
  obtain ⟨counts, spaces⟩ := counted id
  have after := Table.lookups_foldl_put addSpace references.spaced (index.counts, index.spaces) id
  have narrow := references.bitsOf_lt id
  unfold withBits PassIndex.add
  unfold FileReferences.bitsOf at narrow ⊢
  dsimp only at after ⊢
  generalize references.spaces.foldl _ _ = tables at after ⊢
  cases found : references.spaces.find? fun entry => decide (entry.1 = id) with
  | none =>
    rw [found] at after
    obtain ⟨first, second⟩ := Prod.mk.inj after
    rw [first, second]
    exact ⟨counts, spaces⟩
  | some entry =>
    rw [found] at after narrow
    obtain ⟨first, second⟩ := Prod.mk.inj after
    rw [first, second]
    rw [counts, spaces, raise_eq (room id).1, raise_eq (room id).2, union_or narrow]
    exact ⟨rfl, rfl⟩

private theorem Counted.remove {tallies : String → ℕ × ℕ}
    (counted : Counted index (withBits tallies references)) :
    Counted (index.remove place references) tallies := by
  intro id
  obtain ⟨counts, spaces⟩ := counted id
  have after := Table.lookups_foldl_put removeSpace references.spaced
    (index.counts, index.spaces) id
  unfold withBits FileReferences.bitsOf at counts spaces
  unfold PassIndex.remove
  dsimp only at after ⊢
  generalize references.spaces.foldl _ _ = tables at after ⊢
  cases found : references.spaces.find? fun entry => decide (entry.1 = id) with
  | none =>
    rw [found] at after counts spaces
    obtain ⟨first, second⟩ := Prod.mk.inj after
    rw [first, second]
    exact ⟨counts, spaces⟩
  | some entry =>
    rw [found] at after counts spaces
    unfold removeSpace at after
    cases known : index.counts.lookup id with
    | none =>
      rw [known] at after counts
      obtain ⟨first, second⟩ := Prod.mk.inj after
      obtain ⟨zero, zero'⟩ := Prod.mk.inj counts
      rw [first, second, spaces, ← counts]
      have bare : tallies id = (0, 0) := Prod.ext (by omega) (by omega)
      rw [bare]
      exact ⟨rfl, rfl⟩
    | some held =>
      rw [known, getD_some] at counts
      rw [known, counts] at after
      simp only [lower_eq] at after
      split at after
      · rename_i none
        obtain ⟨first, second⟩ := Prod.mk.inj after
        have bare : tallies id = (0, 0) := none.2
        rw [first, second, bare]
        refine ⟨rfl, ?_⟩
        cases index.spaces.lookup id <;> rfl
      · obtain ⟨first, second⟩ := Prod.mk.inj after
        rw [first, second]
        refine ⟨rfl, ?_⟩
        cases there : index.spaces.lookup id with
        | some bits => rfl
        | none =>
          rw [there] at spaces
          exact (union_eq_zero_of_add spaces.symm).symm

variable {other : ℕ} {among : List ℕ} {new : Option FileReferences}

private theorem entriesAt_update_self (id : String) :
    entriesAt (update places place (some references)) id place =
      indexed (number place) (references.spansOf id) := by
  unfold entriesAt
  rw [update_self]

private theorem entriesAt_none (empty : places place = none) (id : String) :
    entriesAt places id place = [] := by
  unfold entriesAt
  rw [empty]

private theorem path_entriesAt {id : String} {entry : Indexed}
    (member : entry ∈ entriesAt places id place) : entry.path = number place := by
  unfold entriesAt indexed at member
  split at member
  · obtain ⟨span, -, rfl⟩ := mem_map.mp member
    rfl
  · cases member

private theorem number_eq (small : place < 2 ^ 32) : number place = place := by
  unfold number
  omega

private theorem entriesAt_congr {others : ℕ → Option FileReferences} {id : String}
    (same : others other = places other) : entriesAt others id other = entriesAt places id other := by
  unfold entriesAt
  rw [same]

private theorem split_of_none {α : Type} {keep : α → Bool} {items : List α}
    (none : ∀ item ∈ items, keep item = false) :
    items.takeWhile keep = [] ∧ items.dropWhile keep = items := by
  cases items with
  | nil => exact ⟨rfl, rfl⟩
  | cons item items =>
    have first := none item mem_cons_self
    rw [takeWhile_cons, dropWhile_cons, first]
    exact ⟨rfl, rfl⟩

variable (references) in
private theorem tallies_update (split : among.Nodup) (inside : place ∈ among)
    (empty : places place = none) : tallies (update places place (some references)) among =
        withBits (tallies places among) references ∧
      ∀ id bit, tally places id bit among + 1 ≤ among.length := by
  obtain ⟨before, after, rfl⟩ := append_of_mem inside
  have apart := nodup_middle.mp split
  have fresh := (nodup_cons.mp apart).1
  have bare : ∀ id bit, bitAt places id bit place = false := by
    intro id bit
    unfold bitAt
    rw [empty]
  have counted : ∀ id bit,
      tally (update places place (some references)) id bit (before ++ place :: after) =
        tally places id bit (before ++ place :: after) +
          ((references.bitsOf id).testBit bit).toNat := by
    intro id bit
    have stays : ∀ others : List ℕ, place ∉ others →
        others.countP (bitAt (update places place (some references)) id bit) =
          others.countP (bitAt places id bit) := by
      intro others outside
      refine countP_congr fun other member => ?_
      have apart : other ≠ place := fun same => outside (same ▸ member)
      unfold bitAt
      rw [update_of_ne apart]
    have here : bitAt (update places place (some references)) id bit place =
        (references.bitsOf id).testBit bit := by
      unfold bitAt
      rw [update_self]
    unfold tally
    rw [countP_append, countP_append, countP_cons, countP_cons, here,
      bare, stays before fun member => fresh (mem_append_left after member),
      stays after fun member => fresh (mem_append_right before member)]
    cases (references.bitsOf id).testBit bit
    · simp
    · simp only [Bool.toNat_true, if_true, Bool.false_eq_true, if_false]
      omega
  constructor
  · funext id
    exact Prod.ext (counted id 0) (counted id 1)
  · intro id bit
    have front := countP_le_length (p := bitAt places id bit) (l := before)
    have back := countP_le_length (p := bitAt places id bit) (l := after)
    unfold tally
    rw [countP_append, countP_cons, bare, length_append, length_cons]
    simp only [Bool.false_eq_true, if_false]
    omega

structure Shows (index : PassIndex) (places : ℕ → Option FileReferences) (among : List ℕ) :
    Prop where
  buckets : Buckets index places among
  counted : Counted index (tallies places among)

variable (small : ∀ other ∈ among, other < 2 ^ 32) (inside : place ∈ among)

include small inside

private theorem Buckets.remove (buckets : Buckets index places among)
    (here : places place = some references) :
    Buckets (index.remove place references) (update places place none) among := by
  intro id
  have apart : ∀ other ∈ among, other ≠ place → number other ≠ number place := by
    intro other member different same
    rw [number_eq (small other member), number_eq (small place inside)] at same
    exact different same
  have absent : references.spansOf id = [] →
      ∀ entry ∈ (index.merged.lookup id).getD [], entry.path ≠ number place := by
    intro none entry member same
    rw [buckets id] at member
    obtain ⟨other, within, member⟩ := mem_flatMap.mp member
    rw [path_entriesAt member] at same
    by_cases equal : other = place
    · subst equal
      unfold entriesAt at member
      rw [here] at member
      dsimp only at member
      rw [none] at member
      exact not_mem_nil member
    · exact apart other within equal same
  rw [lookup_merged_remove index place references id absent, buckets id, filter_flatMap]
  refine flatMap_congr fun other member => ?_
  by_cases equal : other = place
  · subst equal
    rw [entriesAt_none (update_self _ _ _), filter_eq_nil_iff]
    intro entry within kept
    exact of_decide_eq_true kept (path_entriesAt within)
  · rw [entriesAt_congr (update_of_ne equal _ _), filter_eq_self]
    intro entry within
    refine decide_eq_true ?_
    rw [path_entriesAt within]
    exact apart other member equal

private theorem Buckets.splice (buckets : Buckets index places among) (ascending : among.Pairwise (· < ·))
    (empty : places place = none) :
    Buckets (index.add place references true) (update places place (some references)) among := by
  intro id
  obtain ⟨before, after, rfl⟩ := append_of_mem inside
  obtain ⟨-, later, across⟩ := pairwise_append.mp ascending
  have below : ∀ other ∈ before, other < place := fun other member =>
    across other member place mem_cons_self
  have above : ∀ other ∈ after, place < other := (pairwise_cons.mp later).1
  have here := number_eq (small place inside)
  have lower : ∀ entry ∈ before.flatMap (entriesAt places id),
      decide (entry.path < number place) := by
    intro entry member
    obtain ⟨other, within, member⟩ := mem_flatMap.mp member
    have smaller := below other within
    have fits := small place inside
    rw [path_entriesAt member, here, number_eq (by omega)]
    exact decide_eq_true smaller
  have upper : ∀ entry ∈ after.flatMap (entriesAt places id),
      decide (entry.path < number place) = false := by
    intro entry member
    obtain ⟨other, within, member⟩ := mem_flatMap.mp member
    have larger := above other within
    have fits := small other (mem_append_right before (mem_cons_of_mem place within))
    rw [path_entriesAt member, here, number_eq fits]
    exact decide_eq_false (by omega)
  have held : (index.merged.lookup id).getD [] =
      before.flatMap (entriesAt places id) ++ after.flatMap (entriesAt places id) := by
    rw [buckets id, flatMap_append, flatMap_cons, entriesAt_none empty, nil_append]
  have stays : ∀ others : List ℕ, (∀ other ∈ others, other ≠ place) →
      others.flatMap (entriesAt (update places place (some references)) id) =
        others.flatMap (entriesAt places id) := fun others apart =>
    flatMap_congr fun other member => entriesAt_congr (update_of_ne (apart other member) _ _)
  rw [lookup_merged_add, if_pos rfl, held, takeWhile_append_of_pos lower,
    dropWhile_append_of_pos lower, (split_of_none upper).1,
    (split_of_none upper).2,
    append_nil, flatMap_append, flatMap_cons, entriesAt_update_self,
    stays before fun other member => (below other member).ne,
    stays after fun other member => (above other member).ne']

private theorem Shows.remove (shows : Shows index places among) (distinct : among.Nodup)
    (here : places place = some references) :
    Shows (index.remove place references) (update places place none) among := by
  refine ⟨shows.buckets.remove small inside here, ?_⟩
  have back : places = update (update places place none) place (some references) := by
    rw [update_idem, ← here, update_eq_self]
  have counted := shows.counted
  rw [back, (tallies_update references distinct inside (update_self _ _ _)).1] at counted
  exact counted.remove

private theorem Shows.splice (shows : Shows index places among) (ascending : among.Pairwise (· < ·))
    (few : among.length < 2 ^ 32) (empty : places place = none) :
    Shows (index.add place references true) (update places place (some references)) among := by
  have distinct : among.Nodup := ascending.imp fun less => less.ne
  obtain ⟨tallied, room⟩ := tallies_update references distinct inside empty
  refine ⟨shows.buckets.splice small inside ascending empty, ?_⟩
  rw [tallied]
  exact shows.counted.add (fun id => ⟨(room id 0).trans_lt few, (room id 1).trans_lt few⟩) true

omit small inside

private theorem Shows.patch {path : Path} (shows : Shows index places (List.range index.paths.length))
    (few : index.paths.length < 2 ^ 32) (found : position index.paths path = some place)
    (inside : place < index.paths.length) :
    Shows (index.patch path (places place) new).2 (update places place new)
      (List.range index.paths.length) := by
  have small : ∀ other ∈ List.range index.paths.length, other < 2 ^ 32 := fun other member =>
    (mem_range.mp member).trans few
  have within := mem_range.mpr inside
  have removed : Shows (match places place with
      | some references => index.remove place references
      | none => index) (update places place none) (List.range index.paths.length) := by
    cases here : places place with
    | some references => exact shows.remove small within nodup_range here
    | none =>
      have same : update places place none = places := by
        rw [← here, update_eq_self]
      rw [same]
      exact shows
  unfold PassIndex.patch
  rw [found]
  cases new with
  | none => exact removed
  | some references =>
    rw [show update places place (some references) =
        update (update places place none) place (some references) from
      (update_idem _ _ _).symm]
    exact removed.splice small within pairwise_lt_range (by rwa [length_range]) (update_self _ _ _)

private theorem paths_patch (index : PassIndex) (path : Path) (old new : Option FileReferences) :
    (index.patch path old new).2.paths = index.paths := by
  unfold PassIndex.patch
  cases position index.paths path with
  | none => rfl
  | some place => cases old <;> cases new <;> rfl

private theorem Buckets.addPlace (buckets : Buckets index places (List.range count)) :
    Buckets (addPlace places index count) places (List.range (count + 1)) := by
  intro id
  unfold PassIndex.addPlace
  rw [range_succ, flatMap_append, flatMap_singleton, ← buckets id]
  cases here : places count with
  | none => rw [entriesAt_none here, append_nil]
  | some references =>
    unfold entriesAt
    rw [lookup_merged_add, here]
    rfl

private theorem Counted.addPlace (counted : Counted index (tallies places (List.range count)))
    (few : count + 1 < 2 ^ 32) :
    Counted (addPlace places index count) (tallies places (List.range (count + 1))) := by
  have tallied : ∀ id bit, tally places id bit (List.range (count + 1)) =
      tally places id bit (List.range count) + (bitAt places id bit count).toNat := by
    intro id bit
    unfold tally
    rw [range_succ, countP_append, countP_singleton]
    cases bitAt places id bit count <;> rfl
  have room : ∀ id bit, tally places id bit (List.range count) ≤ count := by
    intro id bit
    have most := countP_le_length (p := bitAt places id bit) (l := List.range count)
    rwa [length_range] at most
  have both : tallies places (List.range (count + 1)) = fun id =>
      ((tallies places (List.range count) id).1 + (bitAt places id 0 count).toNat,
        (tallies places (List.range count) id).2 + (bitAt places id 1 count).toNat) := by
    funext id
    exact Prod.ext (tallied id 0) (tallied id 1)
  rw [both]
  unfold PassIndex.addPlace bitAt
  cases places count with
  | none => exact counted
  | some references =>
    refine counted.add (fun id => ⟨?_, ?_⟩) false
    · exact (Nat.add_le_add_right (room id 0) 1).trans_lt few
    · exact (Nat.add_le_add_right (room id 1) 1).trans_lt few

end

section

variable {paths : List Path} {contributions : List (Path × FileReferences)}

private theorem paths_addPlaces (among : List ℕ) (index : PassIndex) :
    (among.foldl (addPlace places) index).paths = index.paths := by
  induction among generalizing index with
  | nil => rfl
  | cons place among ih =>
    rw [foldl_cons, ih]
    unfold addPlace
    cases places place <;> rfl

variable (paths contributions) in
private theorem paths_build : (build paths contributions).paths = paths.mergeSort (· ≤ ·) :=
  paths_addPlaces _ _ _

variable (paths contributions) in
private theorem buckets_build : Buckets (build paths contributions)
    (byPath (build paths contributions).paths contributions)
    (List.range (build paths contributions).paths.length) := by
  rw [paths_build]
  unfold build
  dsimp only
  generalize (paths.mergeSort (· ≤ ·)).length = count
  induction count with
  | zero => exact fun id => rfl
  | succ count ih =>
    rw [range_succ, foldl_concat, ← range_succ]
    exact ih.addPlace

private theorem build_shows (few : paths.length < 2 ^ 32) : Shows (build paths contributions)
    (byPath (build paths contributions).paths contributions)
    (List.range (build paths contributions).paths.length) := by
  refine ⟨buckets_build paths contributions, ?_⟩
  have bound : (paths.mergeSort (· ≤ ·)).length < 2 ^ 32 := by rwa [length_mergeSort]
  rw [paths_build]
  unfold build
  dsimp only
  generalize (paths.mergeSort (· ≤ ·)).length = count at bound
  induction count with
  | zero =>
    have none : 0 = union (0, 0) := by decide
    exact fun id => ⟨rfl, none⟩
  | succ count ih =>
    rw [range_succ, foldl_concat, ← range_succ]
    exact (ih (by omega)).addPlace bound

variable {path : Path} {place : ℕ}

private theorem position_lt (found : position paths path = some place) :
    place < paths.length ∧ paths[place]? = some path := by
  unfold position at found
  split at found
  · rename_i member
    cases found
    exact ⟨placeOf_lt member, getElem_placeOf member⟩
  · cases found

private theorem position_inj {path other : Path} (found : position paths path = some place)
    (also : position paths other = some place) : path = other :=
  Option.some.inj ((position_lt found).2.symm.trans (position_lt also).2)

private theorem contributionOf_concat {contribution : Path × FileReferences}
    (fresh : contribution.1 ∉ contributions.map Prod.fst) :
    contributionOf (contributions ++ [contribution]) path =
      if contribution.1 = path then some contribution.2 else contributionOf contributions path := by
  unfold contributionOf
  rw [find?_append]
  by_cases here : contribution.1 = path
  · have absent : contributions.find? (fun other => other.1 = path) = none := by
      refine find?_eq_none.mpr fun other member same => fresh ?_
      exact mem_map.mpr ⟨other, member, (of_decide_eq_true same).trans here.symm⟩
    rw [absent, if_pos here, none_or, find?_singleton, decide_eq_true here]
    rfl
  · rw [if_neg here, find?_singleton, decide_eq_false here]
    exact congrArg _ (or_none)

variable (paths) in
private theorem byPath_concat (contribution : Path × FileReferences) :
    byPath paths (contributions ++ [contribution]) =
      match position paths contribution.1 with
      | some place => update (byPath paths contributions) place (some contribution.2)
      | none => byPath paths contributions := by
  unfold byPath
  rw [foldl_concat]

private theorem byPath_outside (outside : ∀ path, position paths path ≠ some place) :
    byPath paths contributions place = none := by
  induction contributions using List.reverseRecOn with
  | nil => rfl
  | append_singleton contributions contribution ih =>
    rw [byPath_concat]
    split
    · rename_i other there
      rw [update_of_ne (fun same => outside _ (same ▸ there)), ih]
    · exact ih

variable (contributions) in
private theorem contributionOf_replaced (path other : Path) (new : Option FileReferences) :
    contributionOf (replaced contributions path new) other =
      if path = other then new else contributionOf contributions other := by
  have kept : contributionOf (contributions.filter fun contribution => contribution.1 ≠ path)
      other = if path = other then none else contributionOf contributions other := by
    unfold contributionOf
    rw [find?_filter]
    split
    · rename_i same
      rw [find?_eq_none.mpr, map_none]
      simp [same]
    · rename_i apart
      congr 2
      funext contribution
      by_cases here : contribution.1 = other
      · simp [here, Ne.symm apart]
      · simp [here]
  unfold replaced
  cases new with
  | none =>
    rw [map_none, toList_none, append_nil, kept]
  | some references =>
    have fresh : path ∉ (contributions.filter fun contribution =>
        contribution.1 ≠ path).map Prod.fst := by simp
    rw [map_some, toList_some]
    rw [contributionOf_concat fresh, kept]
    split <;> rfl

private theorem position_of_entry {id : String} {entry : Indexed}
    (member : entry ∈ entriesAt (byPath paths contributions) id place) :
    ∃ path, position paths path = some place := by
  by_contra outside
  rw [entriesAt_none (byPath_outside (not_exists.mp outside))] at member
  exact not_mem_nil member

section

variable (distinct : (contributions.map Prod.fst).Nodup)

include distinct

private theorem byPath_position (found : position paths path = some place) :
    byPath paths contributions place = contributionOf contributions path := by
  induction contributions using List.reverseRecOn with
  | nil => rfl
  | append_singleton contributions contribution ih =>
    rw [map_append, map_singleton, nodup_append] at distinct
    obtain ⟨before, -, apart⟩ := distinct
    have fresh : contribution.1 ∉ contributions.map Prod.fst := fun member =>
      apart _ member _ mem_cons_self rfl
    rw [byPath_concat, contributionOf_concat fresh, ← ih before]
    by_cases here : contribution.1 = path
    · rw [here, found, if_pos rfl]
      exact update_self _ _ _
    · rw [if_neg here]
      split
      · rename_i other there
        refine update_of_ne (fun same => here ?_) _ _
        exact position_inj there (same ▸ found)
      · rfl

variable (path : Path) (new : Option FileReferences)

private theorem replaced_distinct : ((replaced contributions path new).map Prod.fst).Nodup := by
  have kept : ((contributions.filter fun contribution => contribution.1 ≠ path).map
      Prod.fst).Nodup := distinct.sublist (filter_sublist.map _)
  unfold replaced
  cases new with
  | none => simpa using kept
  | some references =>
    rw [map_append, nodup_append]
    refine ⟨kept, nodup_singleton _, ?_⟩
    simp

private theorem byPath_replaced {other : ℕ} (apart : position paths path ≠ some other) :
    byPath paths (replaced contributions path new) other = byPath paths contributions other := by
  by_cases inside : ∃ there, position paths there = some other
  · obtain ⟨there, found⟩ := inside
    rw [byPath_position (replaced_distinct distinct path new) found, contributionOf_replaced,
      if_neg fun same => apart (by rwa [same]), byPath_position distinct found]
  · exact (byPath_outside (not_exists.mp inside)).trans (byPath_outside (not_exists.mp inside)).symm

private theorem byPath_replaced_at (found : position paths path = some place) :
    byPath paths (replaced contributions path new) =
      update (byPath paths contributions) place new := by
  funext other
  by_cases equal : other = place
  · subst equal
    rw [byPath_position (replaced_distinct distinct path new) found, contributionOf_replaced,
      if_pos rfl, update_self]
  · rw [update_of_ne equal, byPath_replaced distinct path]
    exact fun there => equal (Option.some.inj (there.symm.trans found))

end

private theorem locations_eq (index : PassIndex) (id : String) : index.locations id =
    if id = "" then [] else ((index.merged.lookup id).getD []).map fun entry =>
      ⟨index.paths.getD entry.path [], entry.start, entry.stop⟩ := by
  unfold locations
  cases index.merged.lookup id <;> rfl

private theorem mergedSpace_eq (index : PassIndex) (id : String) :
    index.mergedSpace id = spaceFromBits ((index.spaces.lookup id).getD 0) := by
  unfold mergedSpace
  cases index.spaces.lookup id with
  | none => rfl
  | some bits =>
    dsimp only [getD_some]
    split
    · rfl
    · rename_i zero
      rw [not_not.mp zero]
      rfl

def Kept (paths : List Path) (held : PassIndex × List (Path × FileReferences)) : Prop :=
  held.1.paths = paths.mergeSort (· ≤ ·) ∧ (held.2.map Prod.fst).Nodup ∧
    Shows held.1 (byPath held.1.paths held.2) (List.range held.1.paths.length)

section

variable (few : paths.length < 2 ^ 32) {held : PassIndex × List (Path × FileReferences)}
  (kept : Kept paths held)

include few

private theorem build_kept (distinct : (contributions.map Prod.fst).Nodup) :
    Kept paths (build paths contributions, contributions) :=
  ⟨paths_build paths contributions, distinct, build_shows few⟩

include kept

private theorem replace_kept (replacement : Path × Option FileReferences) : Kept paths (replace held replacement) := by
  obtain ⟨same, distinct, shows⟩ := kept
  obtain ⟨path, new⟩ := replacement
  have bound : held.1.paths.length < 2 ^ 32 := by rwa [same, length_mergeSort]
  refine ⟨(paths_patch _ _ _ _).trans same, replaced_distinct distinct path new, ?_⟩
  cases found : position held.1.paths path with
  | none =>
    have idle : replace held (path, new) = (held.1, replaced held.2 path new) := by
      unfold replace patch
      rw [found]
    have placed : byPath held.1.paths (replaced held.2 path new) = byPath held.1.paths held.2 := by
      funext other
      exact byPath_replaced distinct path new (by rw [found]; exact nofun)
    rw [idle]
    rw [placed]
    exact shows
  | some place =>
    have moved : Shows (held.1.patch path (contributionOf held.2 path) new).2
        (byPath held.1.paths (replaced held.2 path new))
        (List.range held.1.paths.length) := by
      rw [byPath_replaced_at distinct path new found, ← byPath_position distinct found]
      exact shows.patch bound found (position_lt found).1
    rw [← paths_patch held.1 path (contributionOf held.2 path) new] at moved
    exact moved

private theorem run_kept (replacements : List (Path × Option FileReferences)) :
    Kept paths (replacements.foldl replace held) := by
  induction replacements generalizing held with
  | nil => exact kept
  | cons replacement later ih => exact ih (replace_kept few kept replacement)

private theorem locations_ordered (id : String) : (held.1.locations id).Pairwise fun first second =>
      first.path < second.path ∨ first.path = second.path ∧ first.start ≤ second.start := by
  obtain ⟨same, distinct, shows⟩ := kept
  rw [locations_eq]
  split
  · exact .nil
  rw [shows.buckets id, pairwise_map, pairwise_flatMap]
  constructor
  · intro place _
    unfold entriesAt
    split
    · rename_i references _
      refine pairwise_map.mpr ((references.spansOf_ordered id).imp fun ordered => ?_)
      exact .inr ⟨rfl, ordered⟩
    · exact .nil
  · refine pairwise_lt_range.imp_of_mem fun {first second} member member' less => ?_
    intro entry within other within'
    have held_at : ∀ {place : ℕ} {entry : Indexed}, place ∈ List.range held.1.paths.length →
        entry ∈ entriesAt (byPath held.1.paths held.2) id place →
        held.1.paths[place]? = some (held.1.paths.getD entry.path []) ∧
          position held.1.paths (held.1.paths.getD entry.path []) = some place := by
      intro place entry inside found
      have small : place < 2 ^ 32 := by
        have short := mem_range.mp inside
        rw [same, length_mergeSort] at short
        exact short.trans few
      obtain ⟨path, there⟩ := position_of_entry found
      have value : held.1.paths.getD entry.path [] = path := by
        rw [path_entriesAt found, number_eq small, getD_eq_getElem?_getD, (position_lt there).2]
        rfl
      rw [value]
      exact ⟨(position_lt there).2, there⟩
    obtain ⟨looked, there⟩ := held_at member within
    obtain ⟨looked', there'⟩ := held_at member' within'
    left
    refine lt_of_le_of_ne ?_ fun equal => ?_
    · have sorted : held.1.paths.Pairwise (· ≤ ·) := by
        rw [same]
        exact pairwise_mergeSort' _ _
      obtain ⟨inside, value⟩ := List.getElem?_eq_some_iff.mp looked
      obtain ⟨inside', value'⟩ := List.getElem?_eq_some_iff.mp looked'
      rw [← value, ← value']
      exact pairwise_iff_getElem.mp sorted first second inside inside' less
    · dsimp only at equal
      rw [equal] at there
      exact less.ne (Option.some.inj (there.symm.trans there'))

end

/-- After any replacements the patched index answers as one built from the contributions there
then are, in the order of paths and starts. -/
theorem patched_index_answers_as_built (paths : List Path) (few : paths.length < 2 ^ 32)
    (contributions : List (Path × FileReferences)) (distinct : (contributions.map Prod.fst).Nodup)
    (replacements : List (Path × Option FileReferences)) (id : String) :
    let after := replacements.foldl replace (build paths contributions, contributions)
    after.1.locations id = (build paths after.2).locations id ∧
      after.1.mergedSpace id = (build paths after.2).mergedSpace id ∧
      (after.1.locations id).Pairwise fun first second =>
        first.path < second.path ∨ first.path = second.path ∧ first.start ≤ second.start := by
  intro after
  have kept : Kept paths after := run_kept few (build_kept few distinct) replacements
  obtain ⟨same, apart, shows⟩ := kept
  obtain ⟨built, -, rebuilt⟩ := build_kept few apart
  have agree : after.1.paths = (build paths after.2).paths := same.trans built.symm
  refine ⟨?_, ?_, locations_ordered few ⟨same, apart, shows⟩ id⟩
  · rw [locations_eq, locations_eq, shows.buckets id, rebuilt.buckets id, agree]
  · rw [mergedSpace_eq, mergedSpace_eq, (shows.counted id).2, (rebuilt.counted id).2, agree]

private def oneReference : FileReferences where
  refs := [⟨"x", [⟨1, 2⟩]⟩]
  spaces := [("x", 1)]
  grouped := by decide
  ordered := by simp
  spaced := by decide
  narrow := by decide

theorem patched_index_answers_as_built_moved :
    let after := [(['b'], some oneReference), (['a'], none)].foldl replace
      (build [['a'], ['b']] [(['a'], oneReference)], [(['a'], oneReference)])
    after.1.locations "x" = (build [['a'], ['b']] after.2).locations "x" ∧
      after.1.mergedSpace "x" = (build [['a'], ['b']] after.2).mergedSpace "x" :=
  have answers := patched_index_answers_as_built [['a'], ['b']] (by decide)
    [(['a'], oneReference)] (by decide) [(['b'], some oneReference), (['a'], none)] "x"
  ⟨answers.1, answers.2.1⟩

section

private def words : ℕ → List Path
  | 0 => [[]]
  | length + 1 => (words length).map ('a' :: ·) ++ (words length).map ('b' :: ·)

private theorem length_words (length : ℕ) : (words length).length = 2 ^ length := by
  induction length with
  | zero => rfl
  | succ length ih => rw [words, length_append, length_map, length_map, ih, pow_succ, mul_two]

private theorem words_short (length : ℕ) : ∀ word ∈ words length, word.length = length := by
  induction length with
  | zero => simp [words]
  | succ length ih =>
    intro word member
    rw [words, mem_append, List.mem_map, List.mem_map] at member
    rcases member with ⟨shorter, inside, rfl⟩ | ⟨shorter, inside, rfl⟩
    · rw [length_cons, ih shorter inside]
    · rw [length_cons, ih shorter inside]

private theorem words_ordered (length : ℕ) : (words length).Pairwise (· < ·) := by
  induction length with
  | zero => exact pairwise_singleton _ _
  | succ length ih =>
    rw [words, pairwise_append, pairwise_map, pairwise_map]
    refine ⟨ih.imp fun less => ?_, ih.imp fun less => ?_, fun first left second right => ?_⟩
    · exact cons_lt_cons_iff.mpr (.inr ⟨rfl, less⟩)
    · exact cons_lt_cons_iff.mpr (.inr ⟨rfl, less⟩)
    · obtain ⟨first, -, rfl⟩ := mem_map.mp left
      obtain ⟨second, -, rfl⟩ := mem_map.mp right
      exact cons_lt_cons_iff.mpr (.inl (by decide))

variable {paths : List Path} (ordered : paths.Pairwise (· < ·))

include ordered

private theorem mergeSort_ordered : paths.mergeSort (· ≤ ·) = paths :=
  mergeSort_eq_self _ (ordered.imp le_of_lt)

private theorem position_ordered {place : ℕ} {path : Path} (found : paths[place]? = some path) :
    position paths path = some place := by
  have member := mem_of_getElem? found
  have apart : paths.Nodup := ordered.imp ne_of_lt
  unfold position
  rw [if_pos member]
  exact congrArg some ((getElem?_inj (placeOf_lt member) apart).mp
    ((getElem_placeOf member).trans found.symm))

end

/-- Past 32 bits two paths share a number: when the references of one leave the index, those of
the other leave with them. -/
theorem patch_drops_shared_number : ∃ (paths : List Path)
    (contributions : List (Path × FileReferences)) (path : Path),
    (∀ path ∈ paths, path.length = 33) ∧ (contributions.map Prod.fst).Nodup ∧
      (replace (build paths contributions, contributions) (path, none)).1.locations "x" = [] ∧
      (build paths (replace (build paths contributions, contributions) (path, none)).2).locations
        "x" ≠ [] := by
  -- The numbers stay variables, so that no list of this length is ever evaluated.
  obtain ⟨count, shared⟩ : ∃ count, count = 2 ^ 32 - 1 := ⟨_, rfl⟩
  obtain ⟨paths, ordered, short, many⟩ : ∃ paths : List Path, paths.Pairwise (· < ·) ∧
      (∀ path ∈ paths, path.length = 33) ∧ count + 1 < paths.length := by
    refine ⟨words 33, words_ordered 33, words_short 33, ?_⟩
    rw [length_words]
    omega
  obtain ⟨first, first_at⟩ : ∃ path, paths[count]? = some path :=
    ⟨_, getElem?_eq_getElem (by omega)⟩
  obtain ⟨second, second_at⟩ : ∃ path, paths[count + 1]? = some path :=
    ⟨_, getElem?_eq_getElem many⟩
  let pair := [(first, oneReference), (second, oneReference)]
  have here := position_ordered ordered first_at
  have there := position_ordered ordered second_at
  have apart : first ≠ second := fun same => by
    rw [same, there] at here
    exact absurd (Option.some.inj here) (Nat.succ_ne_self count)
  have distinct : (pair.map Prod.fst).Nodup := by simpa [pair] using apart
  have left : replaced pair second none = [(first, oneReference)] := by
    simp [replaced, pair, apart]
  have old : contributionOf pair second = some oneReference := by
    simp [contributionOf, pair, apart]
  refine ⟨paths, pair, second, short, distinct, ?_, ?_⟩
  · have held : byPath paths pair = update (update (fun _ => none) count (some oneReference))
        (count + 1) (some oneReference) := by
      simp [byPath, pair, here, there]
    have shares : ∀ entry ∈ ((build paths pair).merged.lookup "x").getD [], entry.path = count := by
      intro entry member
      rw [buckets_build, paths_build, mergeSort_ordered ordered, held] at member
      obtain ⟨place, -, member⟩ := mem_flatMap.mp member
      have late : place = count ∨ place = count + 1 := by
        by_contra neither
        rw [not_or] at neither
        simp [entriesAt, neither.1, neither.2] at member
      rw [path_entriesAt member, number]
      omega
    have removed : (replace (build paths pair, pair) (second, none)).1 =
        (build paths pair).remove (count + 1) oneReference := by
      unfold replace patch
      dsimp only
      rw [paths_build, mergeSort_ordered ordered, there, old]
    have some_span : oneReference.spansOf "x" ≠ [] := by decide
    rw [removed, locations_eq, lookup_merged_remove _ _ _ _ fun none => absurd none some_span,
      filter_eq_nil_iff.mpr]
    · rfl
    · intro entry member kept
      refine of_decide_eq_true kept ((shares entry member).trans ?_)
      unfold number
      omega
  · have placed : byPath paths [(first, oneReference)] count = some oneReference := by
      simp [byPath, here]
    have entry : (⟨number count, 1, 2⟩ : Indexed) ∈
        ((build paths [(first, oneReference)]).merged.lookup "x").getD [] := by
      rw [buckets_build, paths_build, mergeSort_ordered ordered]
      refine mem_flatMap.mpr ⟨count, mem_range.mpr (position_lt here).1, ?_⟩
      unfold entriesAt
      rw [placed]
      exact mem_cons_self
    change (build paths (replaced _ second none)).locations "x" ≠ []
    rw [left, locations_eq, if_neg (by decide)]
    exact fun none => ne_nil_of_mem entry (map_eq_nil_iff.mp none)

end

end PassIndex

end SolidChecker.Passes
