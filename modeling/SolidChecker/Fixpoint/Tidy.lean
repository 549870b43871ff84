/- source: solid-reactive-ir/src/base/fixpoint/graph.rs -/

import SolidChecker.Fixpoint.Apply

namespace SolidChecker.Fixpoint.KeptGraph

open List

variable {K I E : Type*} {graph later : KeptGraph K I E} {slot : Slot} {candidates : Finset Slot}

def definedSlots (graph : KeptGraph K I E) : Finset Slot :=
  graph.slots.filter fun slot => graph.isDefined slot

/-- Every live slot is defined, read or a candidate, and the count is that of the defined slots. -/
structure Tidy (graph : KeptGraph K I E) (candidates : Finset Slot) : Prop where
  used : ∀ s, graph.index.key s ≠ none → (graph.nodes s).defined ≠ none ∨
    (∃ reader, s ∈ graph.predSlots reader) ∨ s ∈ candidates
  counted : graph.defined = graph.definedSlots.card

private theorem predSlots_congr {s : Slot} (same : (later.nodes s).defined = (graph.nodes s).defined) :
    later.predSlots s = graph.predSlots s := by
  simp only [predSlots, same]

private theorem mem_foldl_insert (slots : List Slot) (s : Slot) : s ∈ slots.foldl
    (fun candidates pred => insert pred candidates) candidates ↔ s ∈ candidates ∨ s ∈ slots := by
  induction slots generalizing candidates with
  | nil => simp
  | cons pred preds ih => rw [foldl_cons, ih, Finset.mem_insert, mem_cons, or_left_comm, or_assoc]

variable [DecidableEq K]

section

variable (valid : graph.Valid)

include valid

private theorem mem_definedSlots (s : Slot) :
    s ∈ graph.definedSlots ↔ (graph.nodes s).defined ≠ none := by
  rw [definedSlots, Finset.mem_filter, mem_slots, isDefined, Option.isSome_iff_ne_none]
  exact and_iff_right_of_imp (valid.defined_live s)

omit valid in
private theorem slot_live (valid : graph.index.Valid) (key : K) (allocated : List Slot) :
    (∀ s, (graph.slot key allocated).1.index.key s ≠ none →
      graph.index.key s ≠ none ∨ s = (graph.slot key allocated).2.2) ∧
      (graph.slot key allocated).1.defined = graph.defined := by
  have inserted := DenseIndex.insert_spec valid key
  unfold KeptGraph.slot
  generalize graph.index.insert key = result at inserted
  obtain ⟨index, slot, new⟩ := result
  refine ⟨fun s live => ?_, rfl⟩
  by_cases here : s = slot
  · exact .inr here
  · have keys := inserted.keys s
    rw [if_neg here] at keys
    exact .inl (keys ▸ live)

private theorem undefine_tidy (tidy : Tidy graph candidates) (seeded : slot ∈ candidates) :
    Tidy (graph.undefine slot candidates).1 (graph.undefine slot candidates).2 := by
  obtain ⟨cut, index, defined⟩ := undefine_spec valid slot candidates
  have grown : ∀ s, s ∈ (graph.undefine slot candidates).2 ↔
      s ∈ candidates ∨ s ∈ graph.predSlots slot := by
    cases held : (graph.nodes slot).defined <;> simp [undefine, predSlots, held, mem_foldl_insert]
  have erased : (graph.undefine slot candidates).1.definedSlots = graph.definedSlots.erase slot := by
    ext s
    rw [mem_definedSlots cut, Finset.mem_erase, mem_definedSlots valid, defined]
    split <;> simp [*]
  refine ⟨fun s live => ?_, ?_⟩
  · rw [grown]
    rcases tidy.used s (index ▸ live) with here | ⟨reader, read⟩ | member
    · by_cases same : s = slot
      · exact .inr (.inr (.inl (same ▸ seeded)))
      · exact .inl (by rwa [defined, if_neg same])
    · by_cases same : reader = slot
      · exact .inr (.inr (.inr (same ▸ read)))
      · have kept := predSlots_congr ((defined reader).trans (if_neg same))
        exact .inr (.inl ⟨reader, kept ▸ read⟩)
    · exact .inr (.inr (.inl member))
  · rw [erased, Finset.card_erase_eq_ite, ← tidy.counted]
    cases held : (graph.nodes slot).defined <;> simp [undefine, held, mem_definedSlots valid]

private theorem link_live (reader : Slot) (preds : List (K × E)) (allocated : List Slot) :
    (∀ s, (link reader graph allocated preds).1.index.key s ≠ none →
      graph.index.key s ≠ none ∨ s ∈ (link reader graph allocated preds).2.2.map Prod.fst) ∧
      (link reader graph allocated preds).1.defined = graph.defined := by
  replace valid := valid.index
  induction preds generalizing graph allocated with
  | nil => exact ⟨fun _ => .inl, rfl⟩
  | cons pair preds ih =>
    obtain ⟨live, same⟩ := slot_live valid pair.1 allocated
    have indexed := (slot_spec valid pair.1 allocated).1
    rw [link]
    generalize graph.slot pair.1 allocated = result at live same indexed
    obtain ⟨graph₁, allocated₁, pred⟩ := result
    obtain ⟨later, count⟩ := @ih { graph₁ with nodes := addReader graph₁.nodes reader pred }
      allocated₁ indexed
    refine ⟨fun s found => ?_, count.trans same⟩
    rcases later s found with here | listed
    · rcases live s here with old | rfl
      · exact .inl old
      · exact .inr mem_cons_self
    · exact .inr (mem_cons_of_mem _ listed)

private theorem define_tidy (tidy : Tidy graph candidates) (undefined : (graph.nodes slot).defined = none)
    (live : graph.index.key slot ≠ none) (next : Definition K I E) (allocated : List Slot) :
    Tidy (graph.define slot next allocated).1 candidates := by
  obtain ⟨linked, -, held, wanted⟩ := define_spec valid undefined live next allocated
  obtain ⟨lives, count⟩ := link_live valid slot next.preds allocated
  have preds : (graph.define slot next allocated).1.predSlots slot =
      (link slot graph allocated next.preds).2.2.map Prod.fst := by
    simp [define, predSlots, setDefined]
  have present : ((graph.define slot next allocated).1.nodes slot).defined ≠ none := fun absent => by
    rw [definitionAt_eq_none.mpr absent] at wanted
    cases wanted
  have added : (graph.define slot next allocated).1.definedSlots =
      insert slot graph.definedSlots := by
    ext s
    rw [mem_definedSlots linked, Finset.mem_insert, mem_definedSlots valid]
    by_cases same : s = slot
    · simp [same, present]
    · simp [same, held s same]
  refine ⟨fun s found => ?_, ?_⟩
  · rcases lives s found with old | listed
    · rcases tidy.used s old with here | ⟨reader, read⟩ | member
      · exact .inl (held s (fun same => here (same ▸ undefined)) ▸ here)
      · have away : reader ≠ slot := by
          rintro rfl
          simp [predSlots, undefined] at read
        exact .inr (.inl ⟨reader, predSlots_congr (held reader away) ▸ read⟩)
      · exact .inr (.inr member)
    · exact .inr (.inl ⟨slot, preds ▸ listed⟩)
  · rw [added, Finset.card_insert_of_notMem (by simp [mem_definedSlots valid, undefined]),
      ← tidy.counted, ← count]
    rfl

-- Slots come or go and the nodes stay: only the candidates have to be accounted for.
private theorem Tidy.reindex {left : Finset Slot} (tidy : Tidy graph candidates) (reindexed : later.Valid)
    (nodes : later.nodes = graph.nodes) (count : later.defined = graph.defined)
    (live : ∀ s, later.index.key s ≠ none → graph.index.key s ≠ none ∧ s ∉ candidates ∨
      (graph.nodes s).defined ≠ none ∨ (∃ reader, s ∈ graph.predSlots reader) ∨ s ∈ left) :
    Tidy later left := by
  refine ⟨fun s found => ?_, ?_⟩
  · have used := live s found
    have before := tidy.used s
    simp only [predSlots, nodes] at used before ⊢
    tauto
  · rw [count, tidy.counted]
    congr 1
    ext s
    rw [mem_definedSlots valid, mem_definedSlots reindexed, nodes]

variable [DecidableEq I] [DecidableEq E]

private theorem applyChange_tidy {applied : Applied K} (tidy : Tidy graph applied.candidates)
    (change : Change K I E) : Tidy (applyChange (graph, applied) change).1
      (applyChange (graph, applied) change).2.candidates := by
  obtain ⟨key, next⟩ := change
  by_cases skipped : next.isNone && (graph.index.get key).isNone
  · simpa only [applyChange, skipped, if_true]
  obtain ⟨-, nodes, named, -⟩ := slot_spec valid.index key applied.allocated
  have slotted := slot_valid valid key applied.allocated
  obtain ⟨lives, count⟩ := slot_live valid.index key applied.allocated
  -- Undefining a key without a slot is skipped, so no slot is made that nothing uses.
  have known : next = none → graph.index.key (graph.slot key applied.allocated).2.2 ≠ none := by
    rintro rfl
    obtain ⟨s, found⟩ := Option.ne_none_iff_exists'.mp (by simpa using skipped)
    simp [KeptGraph.slot, DenseIndex.insert, found, (valid.index.inverse key s).mp found]
  simp only [applyChange, skipped, Bool.false_eq_true, if_false]
  generalize graph.slot key applied.allocated = result at nodes named slotted lives count known
  obtain ⟨graph₁, allocated, slot⟩ := result
  simp only at nodes named slotted lives count known ⊢
  by_cases same : graph₁.same slot next
  · simp only [same, if_true]
    refine tidy.reindex valid slotted nodes count fun s found => ?_
    have used := tidy.used s
    rcases lives s found with old | rfl
    · tauto
    · cases next with
      | none => exact .inr (used (known rfl))
      | some next =>
        refine .inr (.inl fun absent => ?_)
        have wanted := (same_iff (slotted.preds_live s) _).mp same
        rw [definitionAt_eq_none.mpr (nodes ▸ absent)] at wanted
        cases wanted
  · have seeded : Tidy graph₁ (insert slot applied.candidates) :=
      tidy.reindex valid slotted nodes count fun s found => by
        have used := tidy.used s
        have new := lives s found
        simp only [Finset.mem_insert]
        tauto
    have cut := undefine_tidy slotted seeded (Finset.mem_insert_self ..)
    obtain ⟨cut_valid, cut_index, cut_defined⟩ :=
      undefine_spec slotted slot (insert slot applied.candidates)
    simp only [same, Bool.false_eq_true, if_false]
    cases next with
    | none => exact cut
    | some next =>
      exact define_tidy cut_valid cut (by rw [cut_defined, if_pos rfl])
        (by simp [cut_index, named]) next allocated

omit valid in
private theorem applyChanges_tidy {now : KeptGraph K I E} {applied : Applied K}
    (progress : Progress graph now applied) (tidy : Tidy now applied.candidates)
    (changes : List (Change K I E)) : Tidy (changes.foldl applyChange (now, applied)).1
      (changes.foldl applyChange (now, applied)).2.candidates := by
  induction changes generalizing now applied with
  | nil => exact tidy
  | cons change changes ih =>
    exact ih (applyChange_spec progress change.1 change.2).1
      (applyChange_tidy progress.valid tidy change)

private theorem apply_tidy (tidy : Tidy graph ∅) (changes : List (Change K I E)) :
    Tidy (graph.apply changes).1 (graph.apply changes).2.candidates :=
  applyChanges_tidy (progress_start valid) tidy changes

omit valid [DecidableEq I] [DecidableEq E] in
private theorem sweepSlots_spec (slots : List Slot) :
    (slots.foldl sweepSlot graph).defined = graph.defined ∧
      ∀ s, (graph.nodes s).defined = none → (graph.nodes s).readers = ∅ →
        s ∈ slots ∨ graph.index.key s = none → (slots.foldl sweepSlot graph).index.key s = none := by
  induction slots generalizing graph with
  | nil => simp
  | cons slot slots ih =>
    rw [foldl_cons]
    unfold sweepSlot
    split
    · refine ⟨ih.1, fun s undefined unread due => ih.2 s undefined unread ?_⟩
      rw [DenseIndex.remove_key]
      by_cases same : s = slot
      · exact .inr (if_pos same)
      · simpa [same] using due
    · rename_i used
      refine ⟨ih.1, fun s undefined unread due => ih.2 s undefined unread ?_⟩
      have same : s ≠ slot := by
        rintro rfl
        exact used ⟨by simp [undefined], unread⟩
      simpa [same] using due

omit [DecidableEq I] [DecidableEq E] in
private theorem sweep_tidy (applied : Applied K) (tidy : Tidy graph applied.candidates) :
    Tidy (graph.sweep applied) ∅ := by
  have swept := sweep_spec valid applied
  refine tidy.reindex valid swept.valid swept.nodes (sweepSlots_spec _).1 fun s found => ?_
  obtain ⟨key, named⟩ := Option.ne_none_iff_exists'.mp found
  have live : graph.index.key s ≠ none := by simp [swept.names s key named]
  by_cases member : s ∈ applied.candidates
  · by_contra unused
    simp only [not_or, not_not] at unused
    have unread : (graph.nodes s).readers = ∅ := Finset.eq_empty_of_forall_notMem
      fun reader read => unused.2.2.1 ⟨reader, (valid.readers s reader).mp read⟩
    exact found ((sweepSlots_spec _).2 s unused.2.1 unread (.inl ((Finset.mem_sort _).mpr member)))
  · exact .inl ⟨live, member⟩

end

variable [DecidableEq I] [DecidableEq E]

def settle (graph : KeptGraph K I E) (changes : List (Change K I E)) : KeptGraph K I E :=
  (graph.apply changes).1.sweep (graph.apply changes).2

def settled (history : List (List (Change K I E))) : KeptGraph K I E := history.foldl settle empty

private theorem settled_tidy (history : List (List (Change K I E))) : (settled history).Valid ∧
    Tidy (settled history) ∅ ∧ (settled history).definitionOf = definitionsAfter history := by
  induction history using List.reverseRecOn with
  | nil => exact ⟨empty_valid, ⟨fun s live => absurd rfl live, rfl⟩, rfl⟩
  | append_singleton history changes ih =>
    obtain ⟨valid, tidy, definitions⟩ := ih
    have batch := apply_spec valid changes
    have swept := sweep_spec batch.progress.valid ((settled history).apply changes).2
    rw [definitionsAfter_append, ← definitions, ← batch.definitions,
      ← swept.definitionOf_eq batch.progress.valid, settled, foldl_append]
    exact ⟨swept.valid, sweep_tidy batch.progress.valid _ (apply_tidy valid tidy changes), rfl⟩

/-- After any history: keys and slots are mutually inverse, no free slot is live, the readers
are the inverse of the definitions, a key has a slot exactly if it is defined or read, and the
definitions are counted. -/
theorem settled_represents (history : List (List (Change K I E))) :
    (∀ key slot, (settled history).index.get key = some slot ↔
        (settled history).index.key slot = some key) ∧
      (∀ slot ∈ (settled history).index.free, (settled history).index.key slot = none) ∧
      (∀ pred slot, slot ∈ ((settled history).nodes pred).readers ↔
        pred ∈ (settled history).predSlots slot) ∧
      (∀ key, (settled history).index.get key ≠ none ↔ definitionsAfter history key ≠ none ∨
        ∃ reader definition, definitionsAfter history reader = some definition ∧
          key ∈ definition.preds.map Prod.fst) ∧
      (settled history).defined = (settled history).definedSlots.card := by
  obtain ⟨valid, tidy, definitions⟩ := settled_tidy history
  refine ⟨valid.index.inverse, valid.index.free_dead, valid.readers, fun key => ?_, tidy.counted⟩
  rw [← definitions]
  constructor
  · intro live
    obtain ⟨slot, found⟩ := Option.ne_none_iff_exists'.mp live
    have named := (valid.index.inverse key slot).mp found
    rcases tidy.used slot (by simp [named]) with here | ⟨reader, read⟩ | member
    · exact .inl fun absent => here (definitionAt_eq_none.mp
        (definitionOf_of_key valid.index named ▸ absent))
    · obtain ⟨name, reader_named⟩ := Option.ne_none_iff_exists'.mp
        (valid.defined_live reader fun absent => by simp [predSlots, absent] at read)
      exact .inr ⟨name, (mem_definition_preds valid reader_named named).mpr read⟩
    · simp at member
  · rintro (present | ⟨reader, definition, held, listed⟩)
    · obtain ⟨slot, named, -⟩ := slot_of_definitionOf valid.index present
      simp [(valid.index.inverse key slot).mpr named]
    · simp only [definitionOf, definitionAt, Option.bind_eq_some_iff, Option.map_eq_some_iff] at held
      obtain ⟨slot, -, stored, -, rfl⟩ := held
      simp only [mem_map, mem_filterMap, Option.map_eq_some_iff] at listed
      obtain ⟨_, ⟨pair, -, name, named, rfl⟩, rfl⟩ := listed
      simp [(valid.index.inverse name pair.1).mpr named]

end SolidChecker.Fixpoint.KeptGraph
