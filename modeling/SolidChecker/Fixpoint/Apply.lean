/- source: solid-reactive-ir/src/base/fixpoint/graph.rs -/

import SolidChecker.Fixpoint.KeptGraph

namespace SolidChecker.Fixpoint.KeptGraph

open List

open Foundation.Loop (Returns)
open Foundation.Closure (Walk Reaches Step closeUnder closeUnder_returns)

variable {K I E : Type*} {before graph later : KeptGraph K I E} {applied : Applied K}
  {changes : List (Change K I E)} {slot : Slot} {key : K}

theorem definitionAt_eq_none :
    graph.definitionAt slot = none ↔ (graph.nodes slot).defined = none := by
  rw [definitionAt, Option.map_eq_none_iff]

theorem mem_slots : slot ∈ graph.slots ↔ graph.index.key slot ≠ none := by
  rw [slots, mem_toFinset, DenseIndex.mem_liveSlots]

variable [DecidableEq K]

def override (definitions : K → Option (Definition K I E)) (changes : List (Change K I E)) :
    K → Option (Definition K I E) :=
  changes.foldl (fun definitions change => Function.update definitions change.1 change.2)
    definitions

/-- The definitions a run of batches leaves: for each key, the last change that names
it. -/
def definitionsAfter (history : List (List (Change K I E))) : K → Option (Definition K I E) :=
  override (fun _ => none) history.flatten

theorem definitionsAfter_append (history : List (List (Change K I E)))
    (changes : List (Change K I E)) :
    definitionsAfter (history ++ [changes]) = override (definitionsAfter history) changes := by
  simp only [definitionsAfter, override, flatten_append, foldl_append,
    flatten_cons, flatten_nil, append_nil]

theorem override_flatten_cons (definitions : K → Option (Definition K I E))
    (changes : List (Change K I E)) (later : List (List (Change K I E))) :
    override definitions (changes :: later).flatten =
      override (override definitions changes) later.flatten := by
  simp only [override, flatten_cons, foldl_append]

structure Progress (before graph : KeptGraph K I E) (applied : Applied K) : Prop where
  valid : graph.Valid
  grown : before.Extends graph [] applied.allocated
  held : ∀ s, s ∉ applied.seeds → (graph.nodes s).defined = (before.nodes s).defined
  was : ∀ s, s ∈ applied.wasDefined ↔ s ∈ applied.seeds ∧ (before.nodes s).defined ≠ none
  live : ∀ s ∈ applied.seeds, graph.index.key s ≠ none

theorem progress_start (valid : graph.Valid) : Progress graph graph Applied.none := by
  refine ⟨valid, .refl graph [], fun _ _ => rfl, fun s => ?_, fun s member => ?_⟩
  · simp [Applied.none]
  · simp [Applied.none] at member

private theorem progress_seed (progress : Progress before graph applied)
    {allocated : List Slot} {candidates : Finset Slot} (valid : later.Valid)
    (grown : graph.Extends later applied.allocated allocated) (live : later.index.key slot ≠ none)
    (held : ∀ s, s ≠ slot → (later.nodes s).defined = (graph.nodes s).defined) :
    Progress before later
      { applied with
        seeds := insert slot applied.seeds
        allocated := allocated
        candidates := candidates
        wasDefined :=
          if slot ∉ applied.seeds ∧ (graph.nodes slot).defined.isSome then
            insert slot applied.wasDefined
          else applied.wasDefined } := by
  refine ⟨valid, progress.grown.trans grown, fun s away => ?_, fun s => ?_, fun s member => ?_⟩
  · rw [Finset.mem_insert, not_or] at away
    rw [held s away.1, progress.held s away.2]
  · have marked := progress.was s
    by_cases at_slot : s = slot
    · subst at_slot
      by_cases seeded : s ∈ applied.seeds
      · simp only [seeded, not_true_eq_false, false_and, if_false, Finset.mem_insert, or_true,
          true_and] at marked ⊢
        exact marked
      · have same := progress.held s seeded
        have unmarked : s ∉ applied.wasDefined := fun mark => seeded (marked.mp mark).1
        simp only [seeded, not_false_eq_true, true_and, same, Option.isSome_iff_ne_none,
          Finset.mem_insert, true_or]
        split
        · simp [*]
        · simp [*]
    · have keeps : s ∈ (if slot ∉ applied.seeds ∧ (graph.nodes slot).defined.isSome then
          insert slot applied.wasDefined else applied.wasDefined) ↔ s ∈ applied.wasDefined := by
        split
        · simp only [Finset.mem_insert, at_slot, false_or]
        · rfl
      rw [keeps, marked]
      simp only [Finset.mem_insert, at_slot, false_or]
  · rcases Finset.mem_insert.mp member with rfl | seeded
    · exact live
    · exact grown.live (progress.live s seeded)

section

variable [DecidableEq I] [DecidableEq E] (progress : Progress before graph applied)

include progress

theorem applyChange_spec (key : K) (next : Option (Definition K I E)) :
    Progress before (applyChange (graph, applied) (key, next)).1
        (applyChange (graph, applied) (key, next)).2 ∧
      (applyChange (graph, applied) (key, next)).1.definitionOf =
        Function.update graph.definitionOf key next := by
  by_cases skipped : next.isNone && (graph.index.get key).isNone
  · simp only [applyChange, skipped, if_true]
    simp only [Bool.and_eq_true, Option.isNone_iff_eq_none] at skipped
    refine ⟨progress, ?_⟩
    rw [skipped.1, eq_comm, Function.update_eq_self_iff, definitionOf, skipped.2, Option.bind_none]
  · obtain ⟨-, nodes, named, grown⟩ := slot_spec progress.valid.index key applied.allocated
    have valid := slot_valid progress.valid key applied.allocated
    simp only [applyChange, skipped, Bool.false_eq_true, if_false]
    generalize graph.slot key applied.allocated = result at nodes named grown valid
    obtain ⟨graph₁, allocated, slot⟩ := result
    simp only at nodes named grown valid ⊢
    have live : graph₁.index.key slot ≠ none := by simp [named]
    have slotted : graph₁.definitionOf =
        Function.update graph.definitionOf key (graph₁.definitionAt slot) :=
      definitionOf_update progress.valid valid grown named fun s _ => by rw [nodes]
    by_cases same : graph₁.same slot next
    · simp only [same, if_true]
      have wanted : graph₁.definitionAt slot = next :=
        (same_iff (valid.preds_live slot) next).mp same
      refine ⟨⟨valid, progress.grown.trans grown, fun s away => ?_, progress.was,
        fun s seeded => grown.live (progress.live s seeded)⟩, wanted ▸ slotted⟩
      rw [nodes]
      exact progress.held s away
    · simp only [same, Bool.false_eq_true, if_false]
      obtain ⟨cut_valid, cut_index, cut_defined⟩ :=
        undefine_spec valid slot (insert slot applied.candidates)
      generalize graph₁.undefine slot (insert slot applied.candidates) = result
        at cut_valid cut_index cut_defined
      obtain ⟨graph₂, candidates⟩ := result
      simp only [nodes] at cut_valid cut_index cut_defined ⊢
      have cut_named : graph₂.index.key slot = some key := by rw [cut_index, named]
      have cut_grown : graph.Extends graph₂ applied.allocated allocated :=
        ⟨fun s => cut_index ▸ grown.kept s, fun s => cut_index ▸ grown.allocated s⟩
      have cut_held : ∀ s, s ≠ slot → (graph₂.nodes s).defined = (graph.nodes s).defined :=
        fun s away => by rw [cut_defined s, if_neg away]
      have undefined : (graph₂.nodes slot).defined = none := by
        rw [cut_defined slot, if_pos rfl]
      cases next with
      | none =>
        refine ⟨progress_seed progress cut_valid cut_grown (by simp [cut_named]) cut_held, ?_⟩
        have gone : graph₂.definitionAt slot = none := by
          simp only [definitionAt, undefined, Option.map_none]
        rw [definitionOf_update progress.valid cut_valid cut_grown cut_named cut_held, gone]
      | some next =>
        obtain ⟨new_valid, new_grown, new_held, new_defined⟩ :=
          define_spec cut_valid undefined (by simp [cut_named]) next allocated
        simp only
        generalize graph₂.define slot next allocated = result
          at new_valid new_grown new_held new_defined ⊢
        obtain ⟨graph₃, allocated₃⟩ := result
        have all_grown := cut_grown.trans new_grown
        have all_held : ∀ s, s ≠ slot →
            (graph₃.nodes s).defined = (graph.nodes s).defined :=
          fun s away => (new_held s away).trans (cut_held s away)
        have new_named : graph₃.index.key slot = some key := new_grown.kept slot key cut_named
        refine ⟨progress_seed progress new_valid all_grown (by simp [new_named]) all_held, ?_⟩
        rw [definitionOf_update progress.valid new_valid all_grown new_named all_held, new_defined]

private theorem applyChanges_spec (changes : List (Change K I E)) :
    Progress before (changes.foldl applyChange (graph, applied)).1
        (changes.foldl applyChange (graph, applied)).2 ∧
      (changes.foldl applyChange (graph, applied)).1.definitionOf =
        override graph.definitionOf changes := by
  induction changes generalizing graph applied with
  | nil => exact ⟨progress, rfl⟩
  | cons change changes ih =>
    obtain ⟨key, next⟩ := change
    obtain ⟨step, definitions⟩ := applyChange_spec progress key next
    obtain ⟨run, final⟩ := ih step
    refine ⟨run, ?_⟩
    rw [foldl_cons, final, definitions]
    rfl

end

theorem definitionOf_of_key (valid : graph.index.Valid)
    (named : graph.index.key slot = some key) :
    graph.definitionOf key = graph.definitionAt slot := by
  rw [definitionOf, (valid.inverse key slot).mpr named, Option.bind_some]

theorem slot_of_definitionOf (valid : graph.index.Valid)
    (defined : graph.definitionOf key ≠ none) :
    ∃ slot, graph.index.key slot = some key ∧ (graph.nodes slot).defined ≠ none := by
  cases held : graph.index.get key with
  | none => simp only [definitionOf, held, Option.bind_none, ne_eq, not_true_eq_false] at defined
  | some slot =>
    have named := (valid.inverse key slot).mp held
    refine ⟨slot, named, fun absent => defined ?_⟩
    rw [definitionOf_of_key valid named, definitionAt_eq_none, absent]

theorem mem_definition_preds (valid : graph.Valid) {pred : Slot} {name : K}
    (named : graph.index.key slot = some key) (pred_named : graph.index.key pred = some name) :
    (∃ definition, graph.definitionOf key = some definition ∧
      name ∈ definition.preds.map Prod.fst) ↔ pred ∈ graph.predSlots slot := by
  simp only [definitionOf_of_key valid.index named, definitionAt, predSlots]
  cases held : (graph.nodes slot).defined with
  | none => simp
  | some definition =>
    obtain ⟨direct, preds⟩ := definition
    simp only [Option.map_some, Option.some.injEq, exists_eq_left', mem_filterMap,
      mem_map, Option.map_eq_some_iff]
    constructor
    · rintro ⟨_, ⟨pair, member, name', named', rfl⟩, rfl⟩
      exact ⟨pair, member, valid.index.slot_unique named' pred_named⟩
    · rintro ⟨pair, member, rfl⟩
      exact ⟨(name, pair.2), ⟨pair, member, name, pred_named, rfl⟩, rfl⟩

/-- What a whole batch does: the definitions are overridden, and `undefined` lists
exactly the keys that lost theirs. -/
structure AppliedTo (before graph : KeptGraph K I E) (applied : Applied K)
    (changes : List (Change K I E)) : Prop where
  progress : Progress before graph applied
  definitions : graph.definitionOf = override before.definitionOf changes
  undefined_nodup : applied.undefined.Nodup
  undefined_iff : ∀ key, key ∈ applied.undefined ↔
    before.definitionOf key ≠ none ∧ graph.definitionOf key = none

theorem apply_spec [DecidableEq I] [DecidableEq E] (valid : before.Valid)
    (changes : List (Change K I E)) :
    AppliedTo before (before.apply changes).1 (before.apply changes).2 changes := by
  obtain ⟨progress, definitions⟩ := applyChanges_spec (progress_start valid) changes
  unfold apply
  generalize changes.foldl applyChange (before, .none) = result at progress definitions ⊢
  obtain ⟨graph, applied⟩ := result
  simp only at progress definitions ⊢
  refine ⟨⟨progress.valid, progress.grown, progress.held, progress.was, progress.live⟩,
    definitions, ?_, fun key => ?_⟩
  · refine .filterMap (fun s s' key first second => ?_) ((Finset.sort_nodup _ _).filter _)
    exact progress.valid.index.slot_unique first second
  · simp only [mem_filterMap, mem_filter, Finset.mem_sort, Bool.not_eq_true',
      isDefined, Option.isSome_eq_false_iff, Option.isNone_iff_eq_none]
    constructor
    · rintro ⟨slot, ⟨mark, gone⟩, named⟩
      obtain ⟨-, present⟩ := (progress.was slot).mp mark
      have was := (progress.grown.key_before named).resolve_left (valid.defined_live slot present)
      rw [definitionOf_of_key valid.index was, definitionOf_of_key progress.valid.index named]
      exact ⟨fun absent => present (definitionAt_eq_none.mp absent), definitionAt_eq_none.mpr gone⟩
    · rintro ⟨present, gone⟩
      obtain ⟨slot, was, defined⟩ := slot_of_definitionOf valid.index present
      have named := progress.grown.kept slot key was
      rw [definitionOf_of_key progress.valid.index named, definitionAt_eq_none] at gone
      have seeded : slot ∈ applied.seeds := by
        by_contra unseeded
        rw [progress.held slot unseeded] at gone
        exact defined gone
      exact ⟨slot, ⟨(progress.was slot).mpr ⟨seeded, defined⟩, gone⟩, named⟩

section

variable (valid : before.Valid) (batch : AppliedTo before graph applied changes)

include valid batch

private theorem AppliedTo.definition_eq
    (unseeded : ∀ slot, graph.index.key slot = some key → slot ∉ applied.seeds) :
    before.definitionOf key = graph.definitionOf key := by
  exact (Extends.definitionOf_eq valid batch.progress.valid batch.progress.grown
    fun slot named => batch.progress.held slot (unseeded slot named)).symm

theorem AppliedTo.key_before (named : graph.index.key slot = some key) :
    before.index.get key = if slot ∈ applied.allocated then none else some slot := by
  have later := batch.progress.valid
  have grown := batch.progress.grown
  have fresh : slot ∈ applied.allocated ↔ before.index.key slot = none := by
    rw [grown.allocated]
    simp [named]
  rcases grown.key_before named with dead | was
  · rw [if_pos (fresh.mpr dead)]
    by_contra present
    obtain ⟨other, held⟩ := Option.ne_none_iff_exists'.mp present
    have other_named := (valid.index.inverse key other).mp held
    rw [later.index.slot_unique (grown.kept other key other_named) named, dead] at other_named
    exact nomatch other_named
  · rw [if_neg (by rw [fresh, was]; exact nofun)]
    exact (valid.index.inverse key slot).mpr was

structure IsCone (graph : KeptGraph K I E) (seeds cone : Finset Slot) : Prop where
  seeded : seeds ⊆ cone
  live : ∀ s ∈ cone, graph.index.key s ≠ none
  readers : ∀ s, ∀ pred ∈ graph.predSlots s, pred ∈ cone → s ∈ cone

def coneKeys (graph : KeptGraph K I E) (cone : Finset Slot) : Set K :=
  {key | ∃ slot ∈ cone, graph.index.key slot = some key}

theorem AppliedTo.outside_eq {cone : Finset Slot} (isCone : IsCone graph applied.seeds cone)
    (away : key ∉ coneKeys graph cone) : before.definitionOf key = graph.definitionOf key :=
  batch.definition_eq valid fun slot named seeded => away ⟨slot, isCone.seeded seeded, named⟩

end

section

variable {kept : K → Option (Definition K I E)} {next : List (K × Definition K I E)}

def entriesOf {α : Type*} (key : K) (entries : List (K × α)) : List (K × α) :=
  entries.filter fun entry => entry.1 = key

private theorem override_apply (changes : List (Change K I E)) (key : K) : override kept changes key =
    ((entriesOf key changes).getLast?.map Prod.snd).getD (kept key) := by
  induction changes using List.reverseRecOn with
  | nil => rfl
  | append_singleton changes change ih =>
    have last : override kept (changes ++ [change]) =
        Function.update (override kept changes) change.1 change.2 := foldl_append
    rw [last, entriesOf, filter_append, ← entriesOf]
    by_cases here : change.1 = key
    · subst here
      simp
    · rw [Function.update_of_ne (Ne.symm here), ih]
      simp [here]

def listed (next : List (K × Definition K I E)) (key : K) : Option (Definition K I E) :=
  (entriesOf key next).getLast?.map Prod.snd

def lastOnly {α : Type*} : List (K × α) → List (K × α)
  | [] => []
  | entry :: rest => if entry.1 ∈ rest.map Prod.fst then lastOnly rest else entry :: lastOnly rest

theorem entriesOf_eq_nil {α : Type*} {entries : List (K × α)} :
    entriesOf key entries = [] ↔ key ∉ entries.map Prod.fst := by
  rw [entriesOf, filter_eq_nil_iff, mem_map]
  grind

theorem listed_lastOnly : listed (lastOnly next) = listed next := by
  funext key
  unfold listed
  congr 1
  induction next with
  | nil => rfl
  | cons entry rest ih =>
    unfold lastOnly
    split
    · rename_i later
      rw [ih, entriesOf, entriesOf, filter_cons]
      split
      · rename_i here
        obtain rfl := of_decide_eq_true here
        obtain ⟨init, last, split⟩ := (eq_nil_or_concat' (entriesOf entry.1 rest)).resolve_left
          fun none => entriesOf_eq_nil.mp none later
        rw [getLast?_cons, ← entriesOf, split, getLast?_concat, Option.getD_some]
      · rfl
    · unfold entriesOf at ih ⊢
      rw [filter_cons, filter_cons]
      split
      · rw [getLast?_cons, getLast?_cons, ih]
      · exact ih

private theorem override_gone (gone : List K) :
    override kept (gone.map (·, none)) key = if key ∈ gone then none else kept key := by
  induction gone generalizing kept with
  | nil => rfl
  | cons first rest ih =>
    refine (@ih (Function.update kept first none)).trans ?_
    by_cases here : key = first
    · simp [here]
    · simp [here]

private theorem mem_gone (valid : graph.Valid) : key ∈ (graph.index.liveSlots.filter fun slot =>
      slot ∉ (next.filterMap fun entry => graph.index.get entry.1) ∧
        graph.isDefined slot).filterMap graph.index.key ↔
    key ∉ next.map Prod.fst ∧ graph.definitionOf key ≠ none := by
  simp only [mem_filterMap, mem_filter, decide_eq_true_eq, isDefined, Option.isSome_iff_ne_none,
    DenseIndex.mem_liveSlots]
  constructor
  · rintro ⟨slot, ⟨-, unlisted, defined⟩, named⟩
    refine ⟨fun listed => unlisted ?_, ?_⟩
    · obtain ⟨entry, member, rfl⟩ := mem_map.mp listed
      exact ⟨entry, member, (valid.index.inverse _ _).mpr named⟩
    · rwa [definitionOf_of_key valid.index named, ne_eq, definitionAt_eq_none]
  · rintro ⟨unlisted, defined⟩
    obtain ⟨slot, named, held⟩ := slot_of_definitionOf valid.index defined
    refine ⟨slot, ⟨by simp [named], ?_, held⟩, named⟩
    rintro ⟨entry, member, found⟩
    cases ((valid.index.inverse _ _).mp found).symm.trans named
    exact unlisted (mem_map_of_mem member)

variable [DecidableEq I] [DecidableEq E]

/-- The entries that differ from the kept definitions, and the defined keys the list lacks. -/
def diff (graph : KeptGraph K I E) (next : List (K × Definition K I E)) : List (Change K I E) :=
  let slots := next.filterMap fun entry => graph.index.get entry.1
  let changed := next.filter fun entry =>
    !(graph.index.get entry.1).any fun slot => graph.same slot (some entry.2)
  let gone := graph.index.liveSlots.filter fun slot => slot ∉ slots ∧ graph.isDefined slot
  changed.map (fun entry => (entry.1, some entry.2)) ++
    (gone.filterMap graph.index.key).map (·, none)

variable (valid : graph.Valid)

include valid

private theorem differs_iff (entry : K × Definition K I E) :
    (!(graph.index.get entry.1).any fun slot => graph.same slot (some entry.2)) =
      decide (graph.definitionOf entry.1 ≠ some entry.2) := by
  unfold definitionOf
  cases graph.index.get entry.1 with
  | none => simp
  | some slot => simp [← same_iff (valid.preds_live slot)]

theorem diff_spec (steady : ∀ key kept, graph.definitionOf key = some kept →
      listed next key = some kept → ∀ other, (key, other) ∈ next → other = kept) :
    override graph.definitionOf (graph.diff next) = listed next := by
  funext key
  rw [diff, override, foldl_append, ← override, ← override, override_gone, override_apply, entriesOf,
    filter_map]
  simp only [mem_gone valid, differs_iff valid, Function.comp_def, getLast?_map, Option.map_map]
  rw [filter_comm, ← entriesOf, listed]
  rcases eq_nil_or_concat' (entriesOf key next) with none | ⟨init, last, split⟩
  · have unlisted := entriesOf_eq_nil.mp none
    by_cases undefined : graph.definitionOf key = Option.none
    · simp [none, undefined]
    · simp [none, unlisted, undefined]
  · have member : ∀ entry ∈ init ++ [last], entry ∈ next ∧ entry.1 = key := by
      intro entry inside
      rw [← split] at inside
      simpa [entriesOf] using inside
    obtain ⟨inside, rfl⟩ := member last (by simp)
    rw [if_neg fun gone => gone.1 (mem_map_of_mem inside), split, getLast?_concat, filter_append]
    by_cases same : graph.definitionOf last.1 = some last.2
    · have all : init.filter (fun entry => graph.definitionOf entry.1 ≠ some entry.2) = [] := by
        refine filter_eq_nil_iff.mpr fun entry before => ?_
        obtain ⟨within, named⟩ := member entry (mem_append_left _ before)
        have equal := steady last.1 last.2 same (by rw [listed, split, getLast?_concat]; rfl)
          entry.2 (named ▸ within)
        simp [named, equal, same]
      rw [all]
      simp [same]
    · simp [same]

end

/-- What freeing slots keeps: the nodes, and the name of every slot that is defined. -/
structure Swept (graph swept : KeptGraph K I E) : Prop where
  valid : swept.Valid
  nodes : swept.nodes = graph.nodes
  names : ∀ s key, swept.index.key s = some key → graph.index.key s = some key
  kept : ∀ s, (graph.nodes s).defined ≠ none → swept.index.key s = graph.index.key s
  read : ∀ s, (graph.nodes s).readers ≠ ∅ → swept.index.key s = graph.index.key s

variable (valid : graph.Valid)

include valid

private theorem sweepSlot_spec (slot : Slot) : Swept graph (graph.sweepSlot slot) := by
  unfold sweepSlot
  split
  · rename_i unused
    obtain ⟨undefined, unread⟩ := unused
    rw [Option.isNone_iff_eq_none] at undefined
    have keys := graph.index.remove_key slot
    have kept : ∀ s, s ≠ slot → (graph.index.remove slot).key s = graph.index.key s :=
      fun s away => by rw [keys, if_neg away]
    refine ⟨⟨graph.index.remove_valid valid.index slot, fun s present => ?_,
      fun s pred member => ?_, valid.readers⟩, rfl, fun s key named => ?_, fun s present => ?_,
      fun s reader => ?_⟩
    · have away : s ≠ slot := fun equal => present (equal ▸ undefined)
      rw [kept s away]
      exact valid.defined_live s present
    · have away : pred ≠ slot := fun equal => by
        have reader := (valid.readers pred s).mpr member
        rw [equal, unread] at reader
        exact nomatch reader
      rw [kept pred away]
      exact valid.preds_live s pred member
    · by_cases at_slot : s = slot
      · rw [at_slot, keys, if_pos rfl] at named
        exact nomatch named
      · rwa [kept s at_slot] at named
    · exact kept s fun equal => present (equal ▸ undefined)
    · exact kept s fun equal => reader (equal ▸ unread)
  · exact ⟨valid, rfl, fun _ _ named => named, fun _ _ => rfl, fun _ _ => rfl⟩

theorem sweep_spec (applied : Applied K) : Swept graph (graph.sweep applied) := by
  unfold sweep
  induction applied.candidates.sort (· ≤ ·) generalizing graph with
  | nil => exact ⟨valid, rfl, fun _ _ named => named, fun _ _ => rfl, fun _ _ => rfl⟩
  | cons slot slots ih =>
    have first := sweepSlot_spec valid slot
    have rest := ih first.valid
    rw [foldl_cons]
    refine ⟨rest.valid, rest.nodes.trans first.nodes,
      fun s key named => first.names s key (rest.names s key named), fun s present => ?_,
      fun s reader => ?_⟩
    · exact (rest.kept s (by rwa [first.nodes])).trans (first.kept s present)
    · exact (rest.read s (by rwa [first.nodes])).trans (first.read s reader)

theorem Swept.definitionOf_eq {swept : KeptGraph K I E} (freed : Swept graph swept) :
    swept.definitionOf = graph.definitionOf := by
  have at_eq : ∀ s, swept.definitionAt s = graph.definitionAt s := by
    intro s
    simp only [definitionAt, freed.nodes]
    cases held : (graph.nodes s).defined with
    | none => rfl
    | some definition =>
      obtain ⟨input, preds⟩ := definition
      simp only [Option.map_some, Option.some.injEq, Definition.mk.injEq, true_and]
      refine filterMap_congr fun pair member => ?_
      have listed : pair.1 ∈ graph.predSlots s := by
        simp only [predSlots, held]
        exact mem_map_of_mem member
      have reader := (valid.readers pair.1 s).mpr listed
      rw [freed.read pair.1 (Finset.ne_empty_of_mem reader)]
  funext key
  by_cases defined : graph.definitionOf key = none
  · rw [defined]
    by_contra present
    obtain ⟨slot, named, held⟩ := slot_of_definitionOf freed.valid.index present
    rw [definitionOf_of_key valid.index (freed.names slot key named),
      definitionAt_eq_none] at defined
    exact held (freed.nodes ▸ defined)
  · obtain ⟨slot, named, held⟩ := slot_of_definitionOf valid.index defined
    have still : swept.index.key slot = some key := by rw [freed.kept slot held, named]
    rw [definitionOf_of_key valid.index named, definitionOf_of_key freed.valid.index still, at_eq]

variable {seeds : Finset Slot}

theorem IsCone.dependents {cone : Finset Slot} (isCone : IsCone graph seeds cone)
    {name : K} {definition : Definition K I E}
    (defined : graph.definitionOf key = some definition)
    (listed : name ∈ definition.preds.map Prod.fst) (inside : name ∈ coneKeys graph cone) :
    key ∈ coneKeys graph cone := by
  obtain ⟨pred, pred_inside, pred_named⟩ := inside
  obtain ⟨slot, named, -⟩ :=
    slot_of_definitionOf valid.index (defined ▸ Option.some_ne_none definition)
  have read := (mem_definition_preds valid named pred_named).mp ⟨definition, defined, listed⟩
  exact ⟨slot, isCone.readers slot pred read pred_inside, named⟩

private theorem live_of_predSlots {s pred : Slot}
    (member : pred ∈ graph.predSlots s) : graph.index.key s ≠ none := by
  refine valid.defined_live s fun absent => ?_
  simp only [predSlots, absent, not_mem_nil] at member

variable (live : ∀ s ∈ seeds, graph.index.key s ≠ none)

include live

theorem slots_isCone : IsCone graph seeds graph.slots := by
  refine ⟨fun s member => mem_slots.mpr (live s member), fun s member => mem_slots.mp member,
    fun s pred member _ => mem_slots.mpr (live_of_predSlots valid member)⟩

theorem cone_spec :
    ∃ cone, Returns (fun fuel => graph.cone fuel seeds) cone ∧ IsCone graph seeds cone := by
  have reads : ∀ pred s, s ∈ graph.readers pred ↔ pred ∈ graph.predSlots s := fun pred s => by
    rw [KeptGraph.readers, Finset.mem_sort, valid.readers]
  obtain ⟨cone, returned, reached⟩ :=
    closeUnder_returns graph.readers graph.slots
      (fun pred _ s member => mem_slots.mpr (live_of_predSlots valid ((reads pred s).mp member)))
      ⟨(seeds.sort (· ≤ ·)).reverse, seeds⟩
      (fun s member => mem_slots.mpr (live s member))
      (fun s member => by simpa using member)
      (fun s member unstacked => absurd (by simpa using member) unstacked)
  have outward : ∀ s, ∀ pred ∈ graph.predSlots s, pred ∈ cone → s ∈ cone := by
    intro s pred member inside
    obtain ⟨a, start, path⟩ := (reached pred).mp inside
    exact (reached s).mpr ⟨a, start, path.tail ((reads pred s).mpr member)⟩
  refine ⟨cone, returned, fun s member => (reached s).mpr ⟨s, member, .refl⟩, fun s member => ?_,
    outward⟩
  obtain ⟨a, start, path⟩ := (reached s).mp member
  cases path with
  | refl => exact live s start
  | tail _ edge => exact live_of_predSlots valid ((reads _ s).mp edge)

end SolidChecker.Fixpoint.KeptGraph
