/- source: apps/solid-typefacts/src/passes.rs -/

import SolidChecker.Passes.CanonicalIndex
import SolidChecker.Passes.MergeSettled

namespace SolidChecker.Passes.Merged

open Foundation List
open Producer (WorkId)

variable {S Q D : Type} [LinearOrder S]

section

private theorem mem_changedPlaces {held outputs : List ℕ} {change : ℕ × Option ℕ × ℕ} :
    change ∈ changedPlaces held outputs ↔ outputs[change.1]? = some change.2.2 ∧
      change.2.1 = held[change.1]? ∧ held[change.1]? ≠ some change.2.2 := by
  unfold changedPlaces
  rw [mem_filterMap]
  constructor
  · rintro ⟨⟨output, place⟩, member, kept⟩
    have here := mem_zipIdx_iff_getElem?.mp member
    dsimp only at kept
    split at kept
    · exact nomatch kept
    · rename_i differ
      cases kept
      exact ⟨here, rfl, differ⟩
  · rintro ⟨here, old, differ⟩
    refine ⟨(change.2.2, change.1), mem_zipIdx_iff_getElem?.mpr here, ?_⟩
    dsimp only
    rw [if_neg differ, ← old]

private theorem changedPlaces_distinct (held outputs : List ℕ) :
    ((changedPlaces held outputs).map Prod.fst).Nodup := by
  have places : (changedPlaces held outputs).Pairwise fun first second => first.1 ≠ second.1 := by
    unfold changedPlaces
    rw [pairwise_filterMap]
    have numbered : (outputs.zipIdx.map Prod.snd).Nodup := by
      rw [zipIdx_map_snd]
      exact nodup_range'
    refine (pairwise_map.mp numbered).imp fun {first second} apart => ?_
    intro left leftKept right rightKept
    dsimp only at leftKept rightKept
    split at leftKept
    · exact nomatch leftKept
    · split at rightKept
      · exact nomatch rightKept
      · rw [← Option.some.inj leftKept, ← Option.some.inj rightKept]
        exact apart
  exact pairwise_map.mpr places

def slotsOf (held : List ℕ) (count : ℕ) : List (Option ℕ) :=
  (List.range count).map fun place => held[place]?

private theorem getElem_slotsOf {held : List ℕ} {count place : ℕ} (within : place < count) :
    (slotsOf held count)[place]? = some held[place]? := by
  unfold slotsOf
  rw [getElem?_map, getElem?_range within]
  rfl

private theorem length_slotsOf (held : List ℕ) (count : ℕ) : (slotsOf held count).length = count := by
  rw [slotsOf, length_map, length_range]

private theorem slotsOf_self (outputs : List ℕ) : slotsOf outputs outputs.length = outputs.map some := by
  refine ext_getElem? fun place => ?_
  by_cases within : place < outputs.length
  · rw [getElem_slotsOf within, getElem?_map, getElem?_eq_getElem within]
    rfl
  · have beyond := not_lt.mp within
    rw [getElem?_eq_none (by simpa [slotsOf] using beyond),
      getElem?_eq_none (by simpa using beyond)]

private theorem placed_changed (held outputs : List ℕ) :
    placed (fun change => some change.2.2) (changedPlaces held outputs)
        (placed (fun _ => none) (changedPlaces held outputs) (slotsOf held outputs.length)) =
      outputs.map some := by
  have distinct := changedPlaces_distinct held outputs
  refine ext_getElem? fun place => ?_
  by_cases within : place < outputs.length
  · by_cases changes : place ∈ (changedPlaces held outputs).map Prod.fst
    · obtain ⟨change, member, rfl⟩ := mem_map.mp changes
      rw [getElem_placed_of_mem _ distinct member (by rwa [length_placed, length_slotsOf]),
        getElem?_map, (mem_changedPlaces.mp member).1]
      rfl
    · rw [getElem_placed_of_notMem _ _ changes, getElem_placed_of_notMem _ _ changes,
        getElem_slotsOf within, getElem?_map, getElem?_eq_getElem within]
      by_contra differ
      refine changes (mem_map.mpr ⟨(place, held[place]?, outputs[place]), ?_, rfl⟩)
      exact mem_changedPlaces.mpr
        ⟨getElem?_eq_getElem within, rfl, fun same => differ (congrArg some same)⟩
  · have beyond := not_lt.mp within
    rw [getElem?_eq_none (by rwa [length_placed, length_placed, length_slotsOf]),
      getElem?_eq_none (by simpa using beyond)]

end

section

variable {heap : ℕ → PassOutput S Q D} [DecidableEq Q] {working : Working S Q}

private theorem settled_changes {held outputs : List ℕ} (few : outputs.length < 2 ^ 32)
    (settled : Settled heap (slotsOf held outputs.length) working) :
    (∃ id, (changedPlaces held outputs).foldlM (enterPlace heap)
        ((changedPlaces held outputs).foldl (leavePlace heap) working) = .error id ∧
        ¬Agree heap (outputs.map some)) ∨
      ∃ entered, (changedPlaces held outputs).foldlM (enterPlace heap)
        ((changedPlaces held outputs).foldl (leavePlace heap) working) = .ok entered ∧
        Settled heap (outputs.map some) entered := by
  have distinct := changedPlaces_distinct held outputs
  have within : ∀ change ∈ changedPlaces held outputs, change.1 < outputs.length := by
    intro change member
    exact (List.getElem?_eq_some_iff.mp (mem_changedPlaces.mp member).1).1
  have left := settled_leaves distinct (by rwa [length_slotsOf]) settled fun change member => by
    rw [getElem_slotsOf (within change member), (mem_changedPlaces.mp member).2.1]
  have entered := settled_enters distinct (by rwa [length_placed, length_slotsOf]) left
    fun change member => getElem_placed_of_mem _ distinct member
      ((length_slotsOf _ _).symm ▸ within change member)
  rw [placed_changed] at entered
  exact entered

end

section

variable (heap : ℕ → PassOutput S Q D)

def firstRow (outputs : List ℕ) (id : S) : Option (Row S D) :=
  outputs.findSome? fun output => (heap output).row id

private theorem firstRow_of_providing (front outputs : List ℕ) (id : S) :
    ((providing heap front.length (outputs.map some) id).head?.bind fun place =>
        (front ++ outputs)[place]?.bind fun output => (heap output).row id) =
      firstRow heap outputs id := by
  induction outputs generalizing front with
  | nil => rfl
  | cons output outputs ih =>
    have split := providing_split heap [] (outputs.map some) (some output) id front.length
    rw [nil_append, length_nil, Nat.add_zero] at split
    have later := ih (front ++ [output])
    rw [length_append, length_singleton, append_assoc] at later
    rw [map_cons, split]
    unfold firstRow
    rw [findSome?_cons]
    cases known : (heap output).row id with
    | none =>
      have skipped : provides heap id (some output) = false := by
        change ((heap output).row id).isSome = false
        rw [known]
        rfl
      rw [skipped]
      exact later
    | some row =>
      have provided : provides heap id (some output) := by
        change ((heap output).row id).isSome = true
        rw [known]
        rfl
      rw [provided]
      change ((front ++ output :: outputs)[front.length]?.bind _) = _
      rw [getElem?_append_right (le_refl _), Nat.sub_self]
      exact known

private theorem row_eq_firstRow {merged : Merged S Q}
    (settled : Settled heap (merged.outputs.map some) (merged.keys, merged.providers)) (id : S) :
    merged.row heap id = firstRow heap merged.outputs id := by
  rw [← firstRow_of_providing heap [] merged.outputs id]
  unfold row
  have providers := settled.providers id
  dsimp only at providers
  rw [providers, ofPositions, length_nil, nil_append]
  split
  · rename_i none
    rw [none]
    rfl
  · rfl

end

section

variable (heap : ℕ → PassOutput S Q D)

/-- A merge that sums up its outputs, one for each work; an index it keeps is the one of its rows. -/
structure Whole (merged : Merged S Q) : Prop where
  aligned : merged.outputs.length = merged.works.length
  settled : Settled heap (merged.outputs.map some) (merged.keys, merged.providers)
  indexed : ∀ index ∈ merged.canonicalIndex, Indexes index (merged.canonicalOf heap)

variable {heap}

private theorem settled_free (count : ℕ) : Settled heap (slotsOf [] count) ((∅, ∅)) := by
  have free : ∀ slot ∈ slotsOf [] count, slot = none := by
    intro slot member
    obtain ⟨place, -, rfl⟩ := mem_map.mp member
    rfl
  have none : ∀ id, minted heap (slotsOf [] count) id = [] := by
    intro id
    refine eq_nil_iff_forall_not_mem.mpr fun key member => ?_
    obtain ⟨output, placed, -⟩ := (mem_minted heap).mp member
    exact nomatch free _ placed
  have nobody : ∀ id, providing heap 0 (slotsOf [] count) id = [] := by
    intro id
    unfold providing
    rw [map_eq_nil_iff, filter_eq_nil_iff]
    intro entry member
    rw [free entry.1 (fst_mem_of_mem_zipIdx member)]
    exact Bool.false_ne_true
  refine ⟨fun id first member => ?_, fun id => ?_, fun id => ?_⟩
  · rw [none] at member
    exact nomatch member
  · rw [none]
    rfl
  · rw [nobody]
    rfl

private theorem whole_new : Whole heap (new : Merged S Q) :=
  ⟨rfl, settled_free 0, nofun⟩

private theorem mem_candidates {changed : List (ℕ × Option ℕ × ℕ)} {id : S} :
    id ∈ candidates heap changed ↔ ∃ change ∈ changed,
      (∃ old ∈ change.2.1, ((heap old).row id).isSome) ∨ ((heap change.2.2).row id).isSome := by
  have row (output : PassOutput S Q D) : id ∈ output.rows.keys ↔ (output.row id).isSome := by
    rw [Rows.mem_keys_iff, PassOutput.row, Option.isSome_map, Option.isSome_iff_exists]
  unfold candidates
  simp only [Finset.mem_sort, mem_toFinset, mem_flatMap, mem_append, row,
    Option.mem_toList, Option.mem_def]

private theorem firstRow_of_notMem {held outputs : List ℕ} (sized : held.length = outputs.length) {id : S}
    (apart : id ∉ candidates heap (changedPlaces held outputs)) :
    firstRow heap held id = firstRow heap outputs id := by
  have alike : held.map (fun output => (heap output).row id) =
      outputs.map fun output => (heap output).row id := by
    refine ext_getElem? fun place => ?_
    rw [getElem?_map, getElem?_map]
    by_cases same : held[place]? = outputs[place]?
    · rw [same]
    · have within : place < outputs.length := by
        by_contra beyond
        rw [getElem?_eq_none (by omega), getElem?_eq_none (by omega)] at same
        exact same rfl
      have change : (place, held[place]?, outputs[place]) ∈ changedPlaces held outputs := by
        refine mem_changedPlaces.mpr ⟨getElem?_eq_getElem within, rfl, fun equal => same ?_⟩
        rw [getElem?_eq_getElem within]
        exact equal
      have nothing : ∀ output, held[place]? = some output ∨ outputs[place] = output →
          (heap output).row id = none := by
        intro output either
        by_contra known
        refine apart (mem_candidates.mpr ⟨_, change, ?_⟩)
        rcases either with was | is
        · exact .inl ⟨output, was, Option.isSome_iff_ne_none.mpr known⟩
        · exact .inr (is ▸ Option.isSome_iff_ne_none.mpr known)
      obtain ⟨old, was⟩ : ∃ old, held[place]? = some old :=
        ⟨_, getElem?_eq_getElem (sized ▸ within)⟩
      rw [was, getElem?_eq_getElem within, Option.map_some, Option.map_some,
        nothing _ (.inl was), nothing _ (.inr rfl)]
  have mapped (list : List ℕ) : firstRow heap list id =
      (list.map fun output => (heap output).row id).findSome? fun row => row := by
    rw [findSome?_map]
    rfl
  rw [mapped, mapped, alike]

variable [DecidableEq D]

section

variable {before after : Merged S Q}

variable (before after) in
private theorem moved_ids (ids : List S) : (moved heap before after ids).map Prod.fst =
      ids.filter fun id => after.row heap id ≠ before.row heap id := by
  unfold moved
  rw [filter_map, map_map]
  exact map_id _

private theorem moved_rows {ids : List S} {entry : S × Option (Row S D)}
    (member : entry ∈ moved heap before after ids) : entry.2 = before.row heap entry.1 := by
  obtain ⟨id, -, rfl⟩ := mem_map.mp (mem_filter.mp member).1
  rfl

private theorem mem_moved (sized : before.outputs.length = after.outputs.length)
    (beforeSettled : Settled heap (before.outputs.map some) (before.keys, before.providers))
    (afterSettled : Settled heap (after.outputs.map some) (after.keys, after.providers)) (id : S) :
    id ∈ (moved heap before after (candidates heap
        (changedPlaces before.outputs after.outputs))).map Prod.fst ↔
      after.row heap id ≠ before.row heap id := by
  rw [moved_ids, mem_filter, decide_eq_true_eq]
  refine ⟨And.right, fun differ => ⟨?_, differ⟩⟩
  by_contra apart
  refine differ ?_
  rw [row_eq_firstRow heap afterSettled, row_eq_firstRow heap beforeSettled,
    firstRow_of_notMem sized apart]

private theorem indexes_moveIndex {ids : List S} (distinct : ids.Nodup)
    (covers : ∀ id, after.row heap id ≠ before.row heap id → id ∈ ids)
    {index : Finmap fun _ : S => Multiset S} (indexes : Indexes index (before.canonicalOf heap)) :
    Indexes (moveIndex heap after (moved heap before after ids) index) (after.canonicalOf heap) := by
  have distinctMoved : ((moved heap before after ids).map Prod.fst).Nodup := by
    rw [moved_ids]
    exact distinct.filter _
  have all := indexes.foldl_reindex Prod.fst (moved heap before after ids) distinctMoved
    (after.canonicalOf heap)
  have steps : moveIndex heap after (moved heap before after ids) index =
      (moved heap before after ids).foldl (fun index entry => Merged.reindex index entry.1
        (before.canonicalOf heap entry.1) (after.canonicalOf heap entry.1)) index := by
    refine foldl_ext _ _ _ fun index entry member => ?_
    rw [moved_rows member]
    rfl
  have whole : (fun id => if id ∈ (moved heap before after ids).map Prod.fst
      then after.canonicalOf heap id else before.canonicalOf heap id) = after.canonicalOf heap := by
    funext id
    split
    · rfl
    · rename_i stays
      have same : after.row heap id = before.row heap id := by
        by_contra differ
        refine stays ?_
        rw [moved_ids, mem_filter, decide_eq_true_eq]
        exact ⟨covers id differ, differ⟩
      unfold canonicalOf
      rw [same]
  rw [steps]
  rw [whole] at all
  exact all

end

variable [DecidableEq Q] {works : List WorkId} {merged : Merged S Q}

private theorem update_restarts (other : merged.works ≠ works) (outputs : List ℕ) :
    merged.update heap works outputs = ((changedPlaces [] outputs).foldlM (enterPlace heap)
      ((changedPlaces [] outputs).foldl (leavePlace heap) (∅, ∅))).map fun entered =>
        (⟨true, changedPlaces [] outputs, none⟩, ⟨works, outputs, entered.1, entered.2, none⟩) := by
  have changed : decide (merged.works ≠ works) := decide_eq_true other
  unfold update
  simp only [changed, if_true]
  change ((changedPlaces [] outputs).foldlM (enterPlace heap)
    ((changedPlaces [] outputs).foldl (leavePlace heap) (∅, ∅)) >>= _) = _
  cases (changedPlaces [] outputs).foldlM (enterPlace heap)
    ((changedPlaces [] outputs).foldl (leavePlace heap) (∅, ∅)) <;> rfl

private theorem update_spec (whole : Whole heap merged)
    {outputs : List ℕ} (aligned : outputs.length = works.length) (few : outputs.length < 2 ^ 32) :
    (∃ id, merged.update heap works outputs = .error id ∧ ¬Agree heap (outputs.map some)) ∨
      ∃ report after, merged.update heap works outputs = .ok (report, after) ∧ Whole heap after ∧
        after.outputs = outputs ∧ (report.changedRows = none ↔ merged.works ≠ works) ∧
        ∀ ids ∈ report.changedRows, ids.Pairwise (· < ·) ∧
          ∀ id, id ∈ ids ↔ after.row heap id ≠ merged.row heap id := by
  by_cases same : merged.works = works
  · have sized : merged.outputs.length = outputs.length := by
      rw [whole.aligned, same, aligned]
    have started : Settled heap (slotsOf merged.outputs outputs.length)
        (merged.keys, merged.providers) := by
      rw [← sized, slotsOf_self]
      exact whole.settled
    have unchanged : decide (merged.works ≠ works) = false := decide_eq_false (not_not.mpr same)
    unfold update
    simp only [unchanged, Bool.false_eq_true, if_false]
    rcases settled_changes few started with ⟨id, fails, clash⟩ | ⟨entered, succeeds, settled⟩
    · rw [fails]
      exact .inl ⟨id, rfl, clash⟩
    · rw [succeeds]
      let after : Merged S Q := ⟨works, outputs, entered.1, entered.2, merged.canonicalIndex⟩
      have moves : ∀ id, _ ↔ after.row heap id ≠ merged.row heap id :=
        mem_moved sized whole.settled settled
      refine .inr ⟨_, _, rfl, ⟨aligned, settled, fun index member => ?_⟩, rfl,
        ⟨nofun, fun differ => absurd same differ⟩, fun ids named => ?_⟩
      · obtain ⟨old, held, rfl⟩ := Option.map_eq_some_iff.mp member
        refine indexes_moveIndex (Finset.sort_nodup _ _) (fun id differ => ?_)
          (whole.indexed old held)
        have listed := (moves id).mpr differ
        rw [moved_ids] at listed
        exact mem_of_mem_filter listed
      · cases named
        refine ⟨?_, moves⟩
        rw [moved_ids]
        exact (Finset.sortedLT_sort _).pairwise.filter _
  · have free : Settled heap (slotsOf [] outputs.length) ((∅, ∅)) :=
      settled_free outputs.length
    rw [update_restarts same]
    rcases settled_changes few free with
      ⟨id, fails, clash⟩ | ⟨entered, succeeds, settled⟩
    · rw [fails]
      exact .inl ⟨id, rfl, clash⟩
    · rw [succeeds]
      exact .inr ⟨_, _, rfl, ⟨aligned, settled, nofun⟩, rfl, ⟨fun _ => same, fun _ => rfl⟩, nofun⟩

end

section

variable (heap : ℕ → PassOutput S Q D) [DecidableEq Q] [DecidableEq D]

/-- The merges of a run; one that fails is dropped, so the next begins anew. Every update has an
output for each work and fewer outputs than 32 bits count. -/
inductive Kept : Merged S Q → Prop
  | new : Kept new
  | update {merged after : Merged S Q} {works : List WorkId} {outputs : List ℕ}
      {report : MergeUpdate S} (kept : Kept merged) (aligned : outputs.length = works.length)
      (few : outputs.length < 2 ^ 32)
      (updated : merged.update heap works outputs = .ok (report, after)) : Kept after
  | asked {merged : Merged S Q} (kept : Kept merged) (canonical : Finset S) :
      Kept (merged.idsWithCanonical heap canonical).2

def Collides (outputs : List ℕ) : Prop :=
  ∃ first ∈ outputs, ∃ second ∈ outputs, ∃ id key other,
    (heap first).key id = some key ∧ (heap second).key id = some other ∧ key ≠ other

variable {heap}

omit [DecidableEq Q] [DecidableEq D] in
private theorem agree_iff (outputs : List ℕ) : Agree heap (outputs.map some) ↔ ¬Collides heap outputs := by
  have placed (output : ℕ) : some output ∈ outputs.map some ↔ output ∈ outputs :=
    mem_map_of_injective (Option.some_injective ℕ)
  constructor
  · rintro agree ⟨first, inFirst, second, inSecond, id, key, other, mints, mintsOther, differ⟩
    exact differ (agree id key ((mem_minted heap).mpr ⟨first, (placed first).mpr inFirst, mints⟩)
      other ((mem_minted heap).mpr ⟨second, (placed second).mpr inSecond, mintsOther⟩))
  · intro apart id key inKey other inOther
    obtain ⟨first, inFirst, mints⟩ := (mem_minted heap).mp inKey
    obtain ⟨second, inSecond, mintsOther⟩ := (mem_minted heap).mp inOther
    by_contra differ
    exact apart ⟨first, (placed first).mp inFirst, second, (placed second).mp inSecond, id, key,
      other, mints, mintsOther, differ⟩

private theorem Kept.whole {merged : Merged S Q} (kept : Kept heap merged) : Whole heap merged := by
  induction kept with
  | new => exact whole_new
  | update kept aligned few updated whole =>
    rcases update_spec whole aligned few with ⟨id, fails, -⟩ | ⟨report, after, succeeds, next, -⟩
    · rw [fails] at updated
      exact nomatch updated
    · rw [succeeds] at updated
      obtain ⟨-, rfl⟩ := Prod.mk.inj (Except.ok.inj updated)
      exact next
  | asked kept canonical whole =>
    refine ⟨whole.aligned, whole.settled, fun index member => ?_⟩
    cases member
    rename_i merged
    cases held : merged.canonicalIndex with
    | none => exact indexes_canonicalIndexOfRows heap merged
    | some index => exact whole.indexed index held

/-- In every run: a merge fails if two outputs collide; else it is what a merge of the outputs from
nothing is, and it names exactly the ids whose row moved unless it started over. -/
theorem patched_merge_is_fresh {merged : Merged S Q} (kept : Kept heap merged) {works : List WorkId}
    {outputs : List ℕ} (aligned : outputs.length = works.length) (few : outputs.length < 2 ^ 32) :
    ((∃ id, merged.update heap works outputs = .error id) ↔ Collides heap outputs) ∧
      ∀ report after, merged.update heap works outputs = .ok (report, after) →
        (∃ freshReport fresh, new.update heap works outputs = .ok (freshReport, fresh) ∧
          after.keys = fresh.keys ∧ after.providers = fresh.providers ∧
          (∀ id, after.row heap id = fresh.row heap id) ∧
          ∀ index ∈ after.canonicalIndex, index = fresh.canonicalIndexOfRows heap) ∧
        (report.changedRows = none ↔ merged.works ≠ works) ∧
        ∀ ids ∈ report.changedRows, ids.Pairwise (· < ·) ∧
          ∀ id, id ∈ ids ↔ after.row heap id ≠ merged.row heap id := by
  rcases update_spec kept.whole aligned few with
    ⟨id, fails, clash⟩ | ⟨report, after, succeeds, whole, outs, started, named⟩
  · rw [fails]
    rw [agree_iff, not_not] at clash
    exact ⟨⟨fun _ => clash, fun _ => ⟨id, rfl⟩⟩, nofun⟩
  · have agree : Agree heap (outputs.map some) := by
      rw [← outs]
      exact whole.settled.agree
    rw [succeeds]
    refine ⟨⟨nofun, fun collides => absurd collides ((agree_iff outputs).mp agree)⟩, ?_⟩
    rintro report' after' ⟨⟩
    rcases update_spec (whole_new : Whole heap (new : Merged S Q)) aligned few with
      ⟨id, -, clash⟩ | ⟨freshReport, fresh, begun, freshWhole, freshOuts, -⟩
    · exact absurd agree clash
    · have keys : after.keys = fresh.keys := by
        refine Finmap.ext_lookup fun id => ?_
        rw [whole.settled.keys id, freshWhole.settled.keys id, outs, freshOuts]
      have providers : after.providers = fresh.providers := by
        refine Finmap.ext_lookup fun id => ?_
        rw [whole.settled.providers id, freshWhole.settled.providers id, outs, freshOuts]
      have rows : ∀ id, after.row heap id = fresh.row heap id := by
        intro id
        unfold row
        rw [providers, outs, freshOuts]
      refine ⟨⟨freshReport, fresh, begun, keys, providers, rows, fun index member => ?_⟩, started,
        named⟩
      have names : after.canonicalOf heap = fresh.canonicalOf heap := by
        funext id
        unfold canonicalOf
        rw [rows id]
      exact (names ▸ whole.indexed index member).unique (indexes_canonicalIndexOfRows heap fresh)

/-- In every run of merges and questions, the index answers what a scan of all ids answers. -/
theorem index_answers_scan {merged : Merged S Q} (kept : Kept heap merged) (canonical : Finset S) :
    (merged.idsWithCanonical heap canonical).1 = (merged.idsWithCanonicalScan heap canonical).val :=
  idsWithCanonical_eq heap kept.whole.indexed canonical

private def threeOutputs : ℕ → PassOutput ℕ Unit Unit
  | 0 => ⟨Rows.empty, Rows.empty⟩
  | 1 => ⟨Rows.empty.insert (0, ⟨true, 0, (), 0⟩), Rows.empty.insert (0, ())⟩
  | _ => ⟨Rows.empty.insert (0, ⟨false, 0, (), 0⟩), Rows.empty⟩

private def someWork : WorkId := ⟨['a'], true, true, true⟩

theorem patched_merge_is_fresh_twice : ∃ report after,
    new.update threeOutputs [someWork, someWork] [0, 1] = .ok (report, after) ∧
      ((∃ id, after.update threeOutputs [someWork, someWork] [2, 1] = .error id) ↔
        Collides threeOutputs [2, 1]) := by
  obtain ⟨⟨report, after⟩, updated⟩ :
      ∃ out, new.update threeOutputs [someWork, someWork] [0, 1] = .ok out := ⟨_, rfl⟩
  have kept : Kept threeOutputs after := .update .new rfl (by decide) updated
  exact ⟨report, after, updated, (patched_merge_is_fresh kept rfl (by decide)).1⟩

theorem index_answers_scan_asked : ∃ report after,
    (new.idsWithCanonical threeOutputs {0}).2.update threeOutputs [someWork] [1] =
      .ok (report, after) ∧ (after.idsWithCanonical threeOutputs {0}).1 =
        (after.idsWithCanonicalScan threeOutputs {0}).val := by
  obtain ⟨⟨report, after⟩, updated⟩ : ∃ out, (new.idsWithCanonical threeOutputs {0}).2.update
      threeOutputs [someWork] [1] = .ok out := ⟨_, rfl⟩
  have kept : Kept threeOutputs after := .update (.asked .new {0}) rfl (by decide) updated
  exact ⟨report, after, updated, index_answers_scan kept {0}⟩

end

section

private def rowOutputs : ℕ → PassOutput ℕ Unit Unit
  | 0 => ⟨Rows.empty, Rows.empty⟩
  | _ => ⟨Rows.empty.insert (0, ⟨true, 0, (), 0⟩), Rows.empty⟩

private def manyOutputs (count last : ℕ) : List ℕ := List.replicate count 0 ++ [1] ++ [last]

private theorem enter_empty (count first : ℕ) (working : Working ℕ Unit) :
    ((List.replicate count 0).zipIdx first).foldlM (fun working entry =>
      enterPlace rowOutputs working (entry.2, none, entry.1)) working = .ok working := by
  induction count generalizing first with
  | zero => rfl
  | succ count ih => exact ih (first + 1)

private theorem changed_anew (outputs : List ℕ) :
    changedPlaces [] outputs = outputs.zipIdx.map fun entry => (entry.2, none, entry.1) :=
  congrFun filterMap_eq_map _

private theorem update_anew (count : ℕ) {last : ℕ} (works : List WorkId) (filled : works ≠ [])
    (together : last = 0 ∨ last = 1 ∧ position (count + 1) = position count) :
    ∃ report keys providers, new.update rowOutputs works (manyOutputs count last) =
      .ok (report, ⟨works, manyOutputs count last, keys, providers, none⟩) ∧
      providers.lookup 0 = some [position count] := by
  let first : Finmap fun _ => List ℕ := enterProviders ∅ (position count) (rowOutputs 1)
  have provided : first.lookup 0 = some [position count] := by
    rw [lookup_enterProviders]
    rfl
  obtain ⟨providers, entered, looked⟩ : ∃ providers, enterPlace rowOutputs (∅, first)
      (count + 1, none, last) = .ok (∅, providers) ∧ providers.lookup 0 = some [position count] := by
    rcases together with rfl | ⟨rfl, same⟩
    · exact ⟨first, rfl, provided⟩
    · refine ⟨enterProviders first (position (count + 1)) (rowOutputs 1), rfl, ?_⟩
      rw [lookup_enterProviders, provided, same]
      exact congrArg some (if_pos mem_cons_self)
  have all : (changedPlaces [] (manyOutputs count last)).foldlM (enterPlace rowOutputs)
      ((changedPlaces [] (manyOutputs count last)).foldl (leavePlace rowOutputs) (∅, ∅)) =
        .ok (∅, providers) := by
    rw [changed_anew, foldl_map, foldl_fixed' fun _ => rfl, foldlM_map, manyOutputs, append_assoc,
      zipIdx_append, foldlM_append, enter_empty, length_replicate, Nat.zero_add]
    change (enterPlace rowOutputs (∅, first) (count + 1, none, last) >>= pure) = _
    rw [entered]
    rfl
  refine ⟨⟨true, changedPlaces [] (manyOutputs count last), none⟩, ∅, providers, ?_, looked⟩
  rw [update_restarts (Ne.symm filled), all]
  rfl

private theorem changed_last (front : List ℕ) :
    changedPlaces (front ++ [1]) (front ++ [0]) = [(front.length, some 1, 0)] := by
  unfold changedPlaces
  rw [zipIdx_append, filterMap_append, filterMap_eq_nil_iff.mpr ?_]
  · simp
  · rintro ⟨output, place⟩ member
    have here := mem_zipIdx_iff_getElem?.mp member
    exact if_pos ((getElem?_append_left (List.getElem?_eq_some_iff.mp here).1).trans here)

private theorem update_drops {count : ℕ} (works : List WorkId)
    (keys : Finmap fun _ : ℕ => Unit × ℕ) {providers : Finmap fun _ : ℕ => List ℕ}
    (provided : providers.lookup 0 = some [position count])
    (same : position (count + 1) = position count) :
    ∃ report after, update rowOutputs ⟨works, manyOutputs count 1, keys, providers, none⟩ works
      (manyOutputs count 0) = .ok (report, after) ∧ after.row rowOutputs 0 = none := by
  have unchanged : decide (works ≠ works) = false := decide_eq_false (not_not.mpr rfl)
  have dropped : (leaveProviders providers (position (count + 1)) (rowOutputs 1)).lookup 0 =
      none := by
    rw [lookup_leaveProviders, provided, same]
    have emptied : [position count].filter (fun held => held ≠ position count) = [] := by
      rw [filter_cons_of_neg, filter_nil]
      exact fun differs => of_decide_eq_true differs rfl
    exact if_pos emptied
  unfold update
  simp only [unchanged, Bool.false_eq_true, if_false, manyOutputs, changed_last, length_append,
    length_replicate, length_singleton]
  refine ⟨_, _, rfl, ?_⟩
  change (leaveProviders providers (position (count + 1)) (rowOutputs 1)).lookup 0 >>= _ = none
  rw [dropped]
  rfl

/-- Two outputs share the last of the positions 32 bits hold: one that leaves takes the other's
row along. -/
theorem patch_loses_provider :
    ∃ (count : ℕ) (works : List WorkId), count = 2 ^ 32 - 1 ∧ works.length = count + 2 ∧
      ∃ first before second patched third fresh,
        new.update rowOutputs works (manyOutputs count 1) = .ok (first, before) ∧
        before.update rowOutputs works (manyOutputs count 0) = .ok (second, patched) ∧
        new.update rowOutputs works (manyOutputs count 0) = .ok (third, fresh) ∧
        patched.row rowOutputs 0 = none ∧ (fresh.row rowOutputs 0).isSome := by
  -- The count stays a variable: lists of this length are not to be evaluated.
  obtain ⟨count, value, held, same⟩ : ∃ count, count = 2 ^ 32 - 1 ∧ position count = count ∧
      position (count + 1) = position count :=
    ⟨2 ^ 32 - 1, rfl, Nat.min_eq_left (Nat.le_refl _), (Nat.min_eq_right (Nat.le_succ _)).trans
      (Nat.min_eq_left (Nat.le_refl _)).symm⟩
  let works := List.replicate count someWork ++ [someWork] ++ [someWork]
  have filled : works ≠ [] := append_ne_nil_of_right_ne_nil _ (cons_ne_nil _ _)
  have sized : works.length = count + 2 := by
    simp only [works, length_append, length_replicate, length_singleton]
  obtain ⟨first, keys, providers, begun, provided⟩ :=
    update_anew count works filled (.inr ⟨rfl, same⟩)
  obtain ⟨third, freshKeys, freshProviders, anew, serving⟩ :=
    update_anew count works filled (.inl rfl)
  obtain ⟨second, patched, updated, lost⟩ := update_drops works keys provided same
  refine ⟨count, works, value, sized, first, _, second, patched, third, _, begun, updated, anew,
    lost, ?_⟩
  have placed : (manyOutputs count 0)[count]? = some 1 := by
    unfold manyOutputs
    rw [append_assoc, getElem?_append_right, length_replicate, Nat.sub_self]
    · rfl
    · exact Nat.le_of_eq length_replicate
  unfold row
  rw [serving, held]
  simp only [Option.bind_eq_bind, Option.bind_some, head?_cons, placed]
  rfl

end

end SolidChecker.Passes.Merged
