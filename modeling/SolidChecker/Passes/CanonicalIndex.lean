/- source: apps/solid-typefacts/src/passes.rs -/

import SolidChecker.Passes.Merge

namespace SolidChecker.Passes.Merged

open Foundation List Function

variable {S : Type} [LinearOrder S]

def Indexes (index : Finmap fun _ : S => Multiset S) (names : S → Option S) : Prop :=
  ∀ canonical, ∃ ids : Finset S, (∀ id, id ∈ ids ↔ names id = some canonical) ∧
    index.lookup canonical = if ids = ∅ then none else some ids.val

namespace Indexes

variable {index other : Finmap fun _ : S => Multiset S} {names : S → Option S} {id canonical : S}

theorem unique (first : Indexes index names) (second : Indexes other names) : index = other := by
  refine Finmap.ext_lookup fun canonical => ?_
  obtain ⟨ids, member, looked⟩ := first canonical
  obtain ⟨otherIds, otherMember, otherLooked⟩ := second canonical
  have same : ids = otherIds := by
    ext id
    rw [member, otherMember]
  rw [looked, otherLooked, same]

private theorem empty : Indexes (∅ : Finmap fun _ : S => Multiset S) fun _ => none := fun canonical =>
  ⟨∅, fun id => ⟨nofun, nofun⟩, by rw [if_pos rfl]; rfl⟩

private theorem lookup_getD {ids : Finset S}
    (looked : index.lookup canonical = if ids = ∅ then none else some ids.val) :
    (index.lookup canonical).getD 0 = ids.val := by
  rw [looked]
  split
  · rename_i none
    rw [none]
    rfl
  · rfl

private theorem count_bucket (indexes : Indexes index names) (id canonical : S) :
    ((index.lookup canonical).getD 0).count id = if names id = some canonical then 1 else 0 := by
  obtain ⟨ids, member, looked⟩ := indexes canonical
  rw [lookup_getD looked, Multiset.count_eq_of_nodup ids.nodup]
  exact if_congr (member id) rfl rfl

private theorem push (indexes : Indexes index names) (unnamed : names id = none) :
    Indexes (push index canonical id) (Function.update names id (some canonical)) := by
  intro bucket
  obtain ⟨ids, member, looked⟩ := indexes bucket
  unfold Merged.push
  by_cases here : bucket = canonical
  · subst here
    have absent : id ∉ ids := fun inside => by
      rw [member, unnamed] at inside
      exact nomatch inside
    refine ⟨insert id ids, fun other => ?_, ?_⟩
    · rw [Finset.mem_insert, member, update_apply]
      split
      · rename_i same
        exact ⟨fun _ => rfl, fun _ => .inl same⟩
      · rename_i differ
        exact ⟨fun given => given.resolve_left differ, .inr⟩
    · have held := lookup_getD looked
      rw [Table.lookup_insert_eq, if_pos rfl, held, if_neg (Finset.insert_ne_empty id ids),
        Finset.insert_val_of_notMem absent]
  · refine ⟨ids, fun other => ?_, ?_⟩
    · rw [member, update_apply]
      split
      · rename_i same
        subst same
        rw [unnamed]
        exact ⟨nofun, fun equal => absurd (Option.some.inj equal).symm here⟩
      · exact .rfl
    · rw [Table.lookup_insert_eq, if_neg here, looked]

private theorem unfile (indexes : Indexes index names) (id : S) :
    Indexes (unfile index id (names id)) (Function.update names id none) := by
  cases named : names id with
  | none =>
    have same : Function.update names id none = names := by
      rw [← named, update_eq_self]
    rw [same]
    exact indexes
  | some canonical =>
    intro bucket
    obtain ⟨ids, member, looked⟩ := indexes bucket
    have inBucket : ∀ other, other ∈ ids.erase id ↔ Function.update names id none other =
        some bucket := by
      intro other
      rw [Finset.mem_erase, member, update_apply]
      split
      · rename_i same
        exact ⟨fun given => absurd same given.1, nofun⟩
      · rename_i differ
        exact ⟨And.right, fun equal => ⟨differ, equal⟩⟩
    refine ⟨ids.erase id, inBucket, ?_⟩
    unfold Merged.unfile
    dsimp only
    by_cases here : bucket = canonical
    · subst here
      have inside : id ∈ ids := (member id).mpr named
      rw [looked, if_neg (Finset.ne_empty_of_mem inside)]
      dsimp only
      rw [← Finset.erase_val]
      by_cases last : ids.erase id = ∅
      · rw [if_pos (Finset.val_eq_zero.mpr last), if_pos last, Table.lookup_erase_eq, if_pos rfl]
      · rw [if_neg (mt Finset.val_eq_zero.mp last), if_neg last, Table.lookup_insert_eq, if_pos rfl]
    · have absent : id ∉ ids := fun inside => by
        rw [member, named] at inside
        exact here (Option.some.inj inside).symm
      have kept : ids.erase id = ids := Finset.erase_eq_of_notMem absent
      rw [kept, ← looked]
      split
      · rfl
      · split
        · rw [Table.lookup_erase_eq, if_neg here]
        · rw [Table.lookup_insert_eq, if_neg here]

private theorem reindex (indexes : Indexes index names) (id : S) (after : Option S) :
    Indexes (reindex index id (names id) after) (Function.update names id after) := by
  unfold Merged.reindex
  split
  · rename_i same
    rw [← same, update_eq_self]
    exact indexes
  · cases after with
    | none => exact indexes.unfile id
    | some canonical =>
      have pushed : Indexes (Merged.push (Merged.unfile index id (names id)) canonical id) _ :=
        (indexes.unfile id).push (update_self id none names)
      rw [update_idem] at pushed
      exact pushed

theorem foldl_reindex {ι : Type} (name : ι → S) (items : List ι)
    (distinct : (items.map name).Nodup) (after : S → Option S) (indexes : Indexes index names) :
    Indexes (items.foldl (fun index item => Merged.reindex index (name item) (names (name item))
        (after (name item))) index)
      fun id => if id ∈ items.map name then after id else names id := by
  induction items generalizing index names with
  | nil =>
    simp only [foldl_nil, map_nil, not_mem_nil, if_false]
    exact indexes
  | cons item items ih =>
    obtain ⟨apart, rest⟩ := nodup_cons.mp distinct
    have next := ih rest (indexes.reindex (name item) (after (name item)))
    have steps : items.foldl (fun index item => Merged.reindex index (name item)
          (names (name item)) (after (name item)))
        (Merged.reindex index (name item) (names (name item)) (after (name item))) =
        items.foldl (fun index other => Merged.reindex index (name other)
          (Function.update names (name item) (after (name item)) (name other))
          (after (name other)))
        (Merged.reindex index (name item) (names (name item)) (after (name item))) := by
      refine foldl_ext _ _ _ fun index other member => ?_
      have differ : name other ≠ name item := fun same =>
        apart (mem_map.mpr ⟨other, member, same⟩)
      rw [update_of_ne differ]
    have result : (fun id => if id ∈ (item :: items).map name then after id else names id) =
        fun id => if id ∈ items.map name then after id
          else Function.update names (name item) (after (name item)) id := by
      funext id
      simp only [map_cons, mem_cons, update_apply]
      by_cases first : id = name item
      · rw [if_pos (.inl first), if_pos first, ← first, ite_self]
      · by_cases later : id ∈ items.map name
        · rw [if_pos (.inr later), if_pos later]
        · rw [if_neg (not_or.mpr ⟨first, later⟩), if_neg later, if_neg first]
    rw [foldl_cons, result, steps]
    exact next

end Indexes

section

variable {Q D : Type} (heap : ℕ → PassOutput S Q D)

def canonicalOf (merged : Merged S Q) (id : S) : Option S := (merged.row heap id).map Row.canonical

theorem indexes_canonicalIndexOfRows (merged : Merged S Q) :
    Indexes (merged.canonicalIndexOfRows heap) (merged.canonicalOf heap) := by
  have all := Indexes.empty.foldl_reindex (fun id => id)
    (inOrder merged.providers.keys) (by
      rw [map_id']
      exact Finset.sort_nodup _ _) (merged.canonicalOf heap)
  have steps : merged.canonicalIndexOfRows heap = (inOrder merged.providers.keys).foldl
      (fun index id => Merged.reindex index id none (merged.canonicalOf heap id)) ∅ := by
    refine foldl_ext _ _ _ fun index id _ => ?_
    unfold canonicalOf Merged.reindex
    cases merged.row heap id <;> rfl
  rw [← steps, map_id'] at all
  have whole : (fun id => if id ∈ inOrder merged.providers.keys then merged.canonicalOf heap id
      else none) = merged.canonicalOf heap := by
    funext id
    split
    · rfl
    · rename_i absent
      rw [Finset.mem_sort, Table.mem_keys_iff, not_not] at absent
      unfold canonicalOf row
      rw [absent]
      rfl
  rw [whole] at all
  exact all

theorem idsWithCanonical_eq {merged : Merged S Q}
    (indexed : ∀ index ∈ merged.canonicalIndex, Indexes index (merged.canonicalOf heap))
    (canonical : Finset S) :
    (merged.idsWithCanonical heap canonical).1 = (merged.idsWithCanonicalScan heap canonical).val := by
  have indexes : Indexes (merged.canonicalIndex.getD (merged.canonicalIndexOfRows heap))
      (merged.canonicalOf heap) := by
    cases held : merged.canonicalIndex with
    | none => exact indexes_canonicalIndexOfRows heap merged
    | some index => exact indexed index held
  refine Multiset.ext.mpr fun id => ?_
  unfold idsWithCanonical
  dsimp only
  rw [Multiset.count_sum', Multiset.count_eq_of_nodup (Finset.nodup _)]
  simp only [indexes.count_bucket]
  have scanned : id ∈ (merged.idsWithCanonicalScan heap canonical).val ↔
      ∃ named ∈ canonical, merged.canonicalOf heap id = some named := by
    rw [Finset.mem_val, idsWithCanonicalScan, Finset.mem_filter, Table.mem_keys_iff]
    unfold canonicalOf
    cases served : merged.row heap id with
    | none => simp
    | some row =>
      have provided : merged.providers.lookup id ≠ none := by
        intro absent
        unfold Merged.row at served
        rw [absent] at served
        exact nomatch served
      simp [provided]
  by_cases named : ∃ name ∈ canonical, merged.canonicalOf heap id = some name
  · rw [if_pos (scanned.mpr named)]
    obtain ⟨name, member, names⟩ := named
    rw [Finset.sum_eq_single_of_mem name member fun other _ differ => if_neg fun same =>
      differ (Option.some.inj (same.symm.trans names)), if_pos names]
  · rw [if_neg (mt scanned.mp named)]
    exact Finset.sum_eq_zero fun name member => if_neg fun names => named ⟨name, member, names⟩

end

end SolidChecker.Passes.Merged
