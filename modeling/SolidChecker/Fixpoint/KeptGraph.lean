/- source: solid-reactive-ir/src/base/fixpoint/graph.rs -/

import SolidChecker.Fixpoint.DenseIndex
import SolidChecker.Foundation.Closure
import Mathlib.Data.Finset.Sort

namespace SolidChecker.Fixpoint

open List Option Function

open Foundation.Loop (Returns)
open Foundation.Closure (Walk Reaches Step closeUnder closeUnder_returns)

/-- A node's definition: its direct value or input, and the nodes it reads, in the
order its step sees them. -/
structure Definition (K I E : Type*) where
  input : I
  preds : List (K × E)
deriving DecidableEq

structure Node (I E : Type*) where
  defined : Option (I × List (Slot × E))
  readers : Finset Slot

abbrev Change (K I E : Type*) := K × Option (Definition K I E)

structure Applied (K : Type*) where
  seeds : Finset Slot
  allocated : List Slot
  undefined : List K
  candidates : Finset Slot
  wasDefined : Finset Slot

def Applied.none {K : Type*} : Applied K := ⟨∅, [], [], ∅, ∅⟩

/-- The node vector grows on demand, so a slot past its end reads the default node. -/
structure KeptGraph (K I E : Type*) where
  index : DenseIndex K
  nodes : Slot → Node I E
  defined : ℕ

variable {K I E : Type*} [DecidableEq K] [DecidableEq I] [DecidableEq E]

namespace KeptGraph

omit [DecidableEq K] [DecidableEq I] [DecidableEq E] in
def empty : KeptGraph K I E := ⟨DenseIndex.empty, fun _ => ⟨none, ∅⟩, 0⟩

def slot (graph : KeptGraph K I E) (key : K) (allocated : List Slot) :
    KeptGraph K I E × List Slot × Slot :=
  let (index, slot, new) := graph.index.insert key
  ({ graph with index }, if new then allocated ++ [slot] else allocated, slot)

def setDefined (graph : KeptGraph K I E) (slot : Slot)
    (defined : Option (I × List (Slot × E))) : Slot → Node I E :=
  Function.update graph.nodes slot { graph.nodes slot with defined }

variable (nodes : Slot → Node I E)

def addReader (reader pred : Slot) : Slot → Node I E :=
  Function.update nodes pred { nodes pred with readers := insert reader (nodes pred).readers }

def dropReader (reader pred : Slot) : Slot → Node I E :=
  Function.update nodes pred { nodes pred with readers := (nodes pred).readers.erase reader }

variable (graph : KeptGraph K I E)

def same (slot : Slot) (next : Option (Definition K I E)) : Bool :=
  match (graph.nodes slot).defined, next with
  | none, none => true
  | some (input, preds), some next =>
    decide (input = next.input) && preds.length == next.preds.length &&
      (preds.zip next.preds).all fun pair =>
        decide (pair.1.2 = pair.2.2) && decide (graph.index.key pair.1.1 = some pair.2.1)
  | _, _ => false

def undefine (graph : KeptGraph K I E) (slot : Slot) (candidates : Finset Slot) :
    KeptGraph K I E × Finset Slot :=
  match (graph.nodes slot).defined with
  | none => (graph, candidates)
  | some (_, preds) =>
    let preds := preds.map Prod.fst
    ({ graph with
        nodes := preds.foldl (fun nodes pred => dropReader nodes slot pred)
          (graph.setDefined slot none)
        defined := graph.defined - 1 },
      preds.foldl (fun candidates pred => insert pred candidates) candidates)

def link (reader : Slot) : KeptGraph K I E → List Slot → List (K × E) →
    KeptGraph K I E × List Slot × List (Slot × E)
  | graph, allocated, [] => (graph, allocated, [])
  | graph, allocated, (key, edge) :: preds =>
    let (graph, allocated, pred) := graph.slot key allocated
    let (graph, allocated, rest) :=
      link reader { graph with nodes := addReader graph.nodes reader pred } allocated preds
    (graph, allocated, (pred, edge) :: rest)

def define (slot : Slot) (next : Definition K I E) (allocated : List Slot) :
    KeptGraph K I E × List Slot :=
  let (graph, allocated, preds) := link slot graph allocated next.preds
  ({ graph with
      nodes := graph.setDefined slot (some (next.input, preds))
      defined := graph.defined + 1 }, allocated)

def applyChange (state : KeptGraph K I E × Applied K) (change : Change K I E) :
    KeptGraph K I E × Applied K :=
  let (graph, applied) := state
  let (key, next) := change
  if next.isNone && (graph.index.get key).isNone then (graph, applied)
  else
    let (graph, allocated, slot) := graph.slot key applied.allocated
    if graph.same slot next then (graph, { applied with allocated })
    else
      let wasDefined :=
        if slot ∉ applied.seeds ∧ (graph.nodes slot).defined.isSome then
          insert slot applied.wasDefined
        else applied.wasDefined
      let seeds := insert slot applied.seeds
      let (graph, candidates) := graph.undefine slot (insert slot applied.candidates)
      match next with
      | none => (graph, { applied with seeds, allocated, candidates, wasDefined })
      | some next =>
        let (graph, allocated) := graph.define slot next allocated
        (graph, { applied with seeds, allocated, candidates, wasDefined })

def isDefined (slot : Slot) : Bool := (graph.nodes slot).defined.isSome

def apply (changes : List (Change K I E)) : KeptGraph K I E × Applied K :=
  let (graph, applied) := changes.foldl applyChange (graph, Applied.none)
  let gone := (applied.wasDefined.sort (· ≤ ·)).filter fun slot => !graph.isDefined slot
  (graph, { applied with undefined := gone.filterMap graph.index.key })

def sweepSlot (slot : Slot) : KeptGraph K I E :=
  if (graph.nodes slot).defined.isNone ∧ (graph.nodes slot).readers = ∅ then
    { graph with index := graph.index.remove slot }
  else graph

def sweep (applied : Applied K) : KeptGraph K I E :=
  (applied.candidates.sort (· ≤ ·)).foldl sweepSlot graph

def readers (graph : KeptGraph K I E) (slot : Slot) : List Slot :=
  (graph.nodes slot).readers.sort (· ≤ ·)

def cone (fuel : ℕ) (seeds : Finset Slot) : Option (Finset Slot) :=
  closeUnder graph.readers fuel ⟨(seeds.sort (· ≤ ·)).reverse, seeds⟩

def slots (graph : KeptGraph K I E) : Finset Slot := graph.index.liveSlots.toFinset

def predSlots (graph : KeptGraph K I E) (slot : Slot) : List Slot :=
  match (graph.nodes slot).defined with
  | none => []
  | some (_, preds) => preds.map Prod.fst

def definitionAt (slot : Slot) : Option (Definition K I E) :=
  (graph.nodes slot).defined.map fun (input, preds) =>
    ⟨input, preds.filterMap fun (pred, edge) => (graph.index.key pred).map (·, edge)⟩

def definitionOf (key : K) : Option (Definition K I E) :=
  (graph.index.get key).bind graph.definitionAt

/-- `Valid`, while `slot` is already a reader of the slots of `extra` that its
definition does not list yet. -/
structure Linking (graph : KeptGraph K I E) (slot : Slot) (extra : List Slot) : Prop where
  index : graph.index.Valid
  defined_live : ∀ s, (graph.nodes s).defined ≠ none → graph.index.key s ≠ none
  preds_live : ∀ s, ∀ pred ∈ graph.predSlots s, graph.index.key pred ≠ none
  extra_live : ∀ pred ∈ extra, graph.index.key pred ≠ none
  readers : ∀ pred s, s ∈ (graph.nodes pred).readers ↔
    pred ∈ graph.predSlots s ∨ (s = slot ∧ pred ∈ extra)

/-- Defined slots and their predecessors are live, and the reverse map is exactly the
inverse of the definitions. -/
structure Valid (graph : KeptGraph K I E) : Prop where
  index : graph.index.Valid
  defined_live : ∀ s, (graph.nodes s).defined ≠ none → graph.index.key s ≠ none
  preds_live : ∀ s, ∀ pred ∈ graph.predSlots s, graph.index.key pred ≠ none
  readers : ∀ pred s, s ∈ (graph.nodes pred).readers ↔ pred ∈ graph.predSlots s

/-- `later` has every live slot of `graph`, and the slots it added were allocated. -/
structure Extends (graph later : KeptGraph K I E) (before after : List Slot) : Prop where
  kept : ∀ s key, graph.index.key s = some key → later.index.key s = some key
  allocated : ∀ s, s ∈ after ↔ s ∈ before ∨ (graph.index.key s = none ∧ later.index.key s ≠ none)

omit [DecidableEq K] [DecidableEq I] [DecidableEq E]

theorem empty_valid [DecidableEq K] : (empty : KeptGraph K I E).Valid := by
  refine ⟨DenseIndex.empty_valid, ?_, ?_, ?_⟩ <;> simp [empty, predSlots]

theorem Extends.refl (allocated : List Slot) : Extends graph graph allocated allocated := by
  refine ⟨fun _ _ named => named, fun s => ?_⟩
  simp only [iff_self_or]
  rintro ⟨dead, live⟩
  exact absurd dead live

variable {a b : List Slot} {slot : Slot} {graph later : KeptGraph K I E}

theorem Extends.live (grown : Extends graph later a b) {s : Slot}
    (live : graph.index.key s ≠ none) : later.index.key s ≠ none := by
  obtain ⟨key, named⟩ := ne_none_iff_exists'.mp live
  simp [grown.kept s key named]

theorem Extends.trans {first second third : KeptGraph K I E} {a b c : List Slot}
    (left : Extends first second a b) (right : Extends second third b c) :
    Extends first third a c := by
  refine ⟨fun s key named => right.kept s key (left.kept s key named), fun s => ?_⟩
  rw [right.allocated, left.allocated]
  have forward := left.live (s := s)
  have onward := right.live (s := s)
  tauto

private theorem Extends.definitionAt_eq (grown : Extends graph later a b)
    {s : Slot} (same : (later.nodes s).defined = (graph.nodes s).defined)
    (preds_live : ∀ pred ∈ graph.predSlots s, graph.index.key pred ≠ none) :
    later.definitionAt s = graph.definitionAt s := by
  simp only [definitionAt, same]
  cases held : (graph.nodes s).defined with
  | none => rfl
  | some definition =>
    obtain ⟨input, preds⟩ := definition
    have members : ∀ pair ∈ preds, graph.index.key pair.1 ≠ none := by
      intro pair member
      refine preds_live pair.1 ?_
      simp only [predSlots, held]
      exact mem_map_of_mem member
    simp only [map_some, Option.some.injEq, Definition.mk.injEq, true_and]
    refine filterMap_congr fun pair member => ?_
    obtain ⟨key, named⟩ := ne_none_iff_exists'.mp (members pair member)
    simp only [named, grown.kept pair.1 key named]

theorem slot_spec [DecidableEq K] (valid : graph.index.Valid) (key : K) (allocated : List Slot) :
    (graph.slot key allocated).1.index.Valid ∧ (graph.slot key allocated).1.nodes = graph.nodes ∧
      (graph.slot key allocated).1.index.key (graph.slot key allocated).2.2 = some key ∧
      Extends graph (graph.slot key allocated).1 allocated (graph.slot key allocated).2.1 := by
  have inserted := DenseIndex.insert_spec valid key
  generalize found : graph.index.insert key = result at inserted
  obtain ⟨index, slot, new⟩ := result
  simp only [KeptGraph.slot, found]
  refine ⟨inserted.valid, trivial, inserted.named, fun s name named => inserted.kept named, ?_⟩
  intro s
  cases new with
  | false =>
    have unchanged : index = graph.index := (inserted.old rfl).1
    simp only [Bool.false_eq_true, if_false, iff_self_or, unchanged]
    rintro ⟨dead, live⟩
    exact absurd dead live
  | true =>
    have dead := (inserted.fresh rfl).1
    simp only [if_true, mem_append, mem_singleton]
    by_cases at_slot : s = slot
    · subst at_slot
      simp [dead, inserted.named]
    · have unchanged : index.key s = graph.index.key s := by
        have equation := inserted.keys s
        rwa [if_neg at_slot] at equation
      simp only [at_slot, unchanged, or_false, iff_self_or]
      rintro ⟨gone, live⟩
      exact absurd gone live

@[simp] private theorem addReader_defined (reader pred s : Slot) :
    (addReader nodes reader pred s).defined = (nodes s).defined := by
  rw [addReader, update_apply]
  split <;> simp [*]

private theorem mem_addReader_readers (reader pred s x : Slot) :
    x ∈ (addReader nodes reader pred s).readers ↔
      x ∈ (nodes s).readers ∨ (x = reader ∧ s = pred) := by
  rw [addReader, update_apply]
  split
  · rename_i at_pred
    simp [at_pred, or_comm]
  · simp [*]

private theorem dropReaders_spec (reader : Slot) (preds : List Slot) (nodes : Slot → Node I E)
    (s x : Slot) : (preds.foldl (fun nodes pred => dropReader nodes reader pred) nodes s).defined =
        (nodes s).defined ∧
      (x ∈ (preds.foldl (fun nodes pred => dropReader nodes reader pred) nodes s).readers ↔
        x ∈ (nodes s).readers ∧ ¬(x = reader ∧ s ∈ preds)) := by
  induction preds generalizing nodes with
  | nil => simp
  | cons pred preds ih =>
    have dropped : (dropReader nodes reader pred s).defined = (nodes s).defined ∧
        (x ∈ (dropReader nodes reader pred s).readers ↔
          x ∈ (nodes s).readers ∧ ¬(x = reader ∧ s = pred)) := by
      rw [dropReader, update_apply]
      split
      · rename_i at_pred
        simp [at_pred, and_comm]
      · simp [*]
    obtain ⟨defined, readers⟩ := ih (dropReader nodes reader pred)
    rw [foldl_cons]
    refine ⟨defined.trans dropped.1, ?_⟩
    rw [readers, dropped.2, mem_cons]
    tauto

@[simp] private theorem setDefined_readers (graph : KeptGraph K I E) (slot s : Slot)
    (defined : Option (I × List (Slot × E))) :
    (graph.setDefined slot defined s).readers = (graph.nodes s).readers := by
  rw [setDefined, update_apply]
  split <;> simp [*]

private theorem setDefined_defined (graph : KeptGraph K I E) (slot s : Slot)
    (defined : Option (I × List (Slot × E))) : (graph.setDefined slot defined s).defined =
      if s = slot then defined else (graph.nodes s).defined := by
  rw [setDefined, update_apply]
  split <;> rfl

theorem undefine_spec [DecidableEq K] (valid : graph.Valid) (slot : Slot) (candidates : Finset Slot)
    : (graph.undefine slot candidates).1.Valid ∧
      (graph.undefine slot candidates).1.index = graph.index ∧
      ∀ s, ((graph.undefine slot candidates).1.nodes s).defined =
        if s = slot then none else (graph.nodes s).defined := by
  unfold undefine
  cases held : (graph.nodes slot).defined with
  | none =>
    refine ⟨valid, rfl, fun s => ?_⟩
    by_cases at_slot : s = slot
    · rw [if_pos at_slot, at_slot, held]
    · rw [if_neg at_slot]
  | some definition =>
    obtain ⟨input, preds⟩ := definition
    have slots : graph.predSlots slot = preds.map Prod.fst := by simp only [predSlots, held]
    have spec := fun s x =>
      dropReaders_spec slot (preds.map Prod.fst) (graph.setDefined slot none) s x
    generalize cut : (preds.map Prod.fst).foldl (fun nodes pred => dropReader nodes slot pred)
      (graph.setDefined slot none) = nodes at spec
    simp only [cut]
    have defined : ∀ s, (nodes s).defined = if s = slot then none else (graph.nodes s).defined :=
      fun s => (spec s 0).1.trans (setDefined_defined graph slot s none)
    have predSlots_eq : ∀ s, (⟨graph.index, nodes, graph.defined - 1⟩ :
        KeptGraph K I E).predSlots s = if s = slot then [] else graph.predSlots s := by
      intro s
      by_cases at_slot : s = slot
      · simp only [predSlots, defined s, if_pos at_slot]
      · simp only [predSlots, defined s, if_neg at_slot]
    refine ⟨⟨valid.index, fun s present => ?_, fun s pred member => ?_, fun pred s => ?_⟩,
      trivial, defined⟩
    · refine valid.defined_live s fun absent => present ?_
      rw [defined s, absent, ite_self]
    · refine valid.preds_live s pred ?_
      rw [predSlots_eq] at member
      by_cases at_slot : s = slot
      · rw [if_pos at_slot] at member
        exact nomatch member
      · rwa [if_neg at_slot] at member
    · rw [predSlots_eq, (spec pred s).2, setDefined_readers, valid.readers]
      by_cases at_slot : s = slot
      · subst at_slot
        simp only [slots, true_and, and_not_self_iff, if_true, not_mem_nil]
      · simp only [at_slot, false_and, not_false_eq_true, and_true, if_false]

variable {extra : List Slot}

private theorem linking_slot [DecidableEq K] {reader : Slot}
    (linking : graph.Linking reader extra) (key : K) (allocated : List Slot) :
    (graph.slot key allocated).1.Linking reader extra := by
  obtain ⟨index, nodes, -, grown⟩ := slot_spec linking.index key allocated
  have slots : ∀ s, (graph.slot key allocated).1.predSlots s = graph.predSlots s :=
    fun s => by simp only [predSlots, nodes]
  refine ⟨index, fun s present => ?_, fun s pred member => ?_, fun pred member => ?_,
    fun pred s => ?_⟩
  · rw [nodes] at present
    exact grown.live (linking.defined_live s present)
  · rw [slots] at member
    exact grown.live (linking.preds_live s pred member)
  · exact grown.live (linking.extra_live pred member)
  · rw [nodes, slots]
    exact linking.readers pred s

private theorem linking_addReader [DecidableEq K] {reader pred : Slot}
    (linking : graph.Linking reader extra) (live : graph.index.key pred ≠ none) :
    ({ graph with nodes := addReader graph.nodes reader pred }).Linking reader
      (extra ++ [pred]) := by
  have slots : ∀ s, ({ graph with nodes := addReader graph.nodes reader pred }).predSlots s = graph.predSlots s :=
    fun s => by simp only [predSlots, addReader_defined]
  refine ⟨linking.index, fun s present => ?_, fun s p member => ?_, fun p member => ?_,
    fun p s => ?_⟩
  · rw [addReader_defined] at present
    exact linking.defined_live s present
  · rw [slots] at member
    exact linking.preds_live s p member
  · rcases mem_append.mp member with old | new
    · exact linking.extra_live p old
    · rw [mem_singleton.mp new]
      exact live
  · rw [mem_addReader_readers, slots, linking.readers, mem_append, mem_singleton]
    tauto

private theorem linking_nil [DecidableEq K] (slot : Slot) :
    graph.Linking slot [] ↔ graph.Valid := by
  constructor
  · intro linking
    refine ⟨linking.index, linking.defined_live, linking.preds_live, fun pred s => ?_⟩
    simpa only [not_mem_nil, and_false, or_false] using linking.readers pred s
  · intro valid
    refine ⟨valid.index, valid.defined_live, valid.preds_live, (fun _ member => nomatch member),
      fun pred s => ?_⟩
    simpa only [not_mem_nil, and_false, or_false] using valid.readers pred s

theorem slot_valid [DecidableEq K] (valid : graph.Valid) (key : K) (allocated : List Slot) :
    (graph.slot key allocated).1.Valid :=
  (linking_nil 0).mp (linking_slot ((linking_nil 0).mpr valid) key allocated)

private theorem link_spec [DecidableEq K] (reader : Slot) (preds : List (K × E))
    (graph : KeptGraph K I E) (allocated extra : List Slot) (linking : graph.Linking reader extra) :
    (link reader graph allocated preds).1.Linking reader
        (extra ++ (link reader graph allocated preds).2.2.map Prod.fst) ∧
      Extends graph (link reader graph allocated preds).1 allocated
        (link reader graph allocated preds).2.1 ∧
      (∀ s, ((link reader graph allocated preds).1.nodes s).defined = (graph.nodes s).defined) ∧
      (link reader graph allocated preds).2.2.map (fun pair =>
          ((link reader graph allocated preds).1.index.key pair.1, pair.2)) =
        preds.map fun pair => (some pair.1, pair.2) := by
  induction preds generalizing graph allocated extra with
  | nil =>
    simp only [link, map_nil, append_nil]
    exact ⟨linking, .refl graph allocated, fun _ => trivial, trivial⟩
  | cons pair preds ih =>
    obtain ⟨key, edge⟩ := pair
    obtain ⟨-, nodes, named, grown⟩ := slot_spec linking.index key allocated
    have slotted := linking_slot linking key allocated
    generalize found : graph.slot key allocated = result at nodes named grown slotted
    obtain ⟨graph₁, allocated₁, pred⟩ := result
    have live : graph₁.index.key pred ≠ none := by simp [named]
    obtain ⟨linked, extended, defined, keys⟩ :=
      ih { graph₁ with nodes := addReader graph₁.nodes reader pred } allocated₁
        (extra ++ [pred]) (linking_addReader slotted live)
    simp only [link, found]
    generalize rest : link reader
      { graph₁ with nodes := addReader graph₁.nodes reader pred } allocated₁ preds = result
      at linked extended defined keys
    obtain ⟨graph₂, allocated₂, slots⟩ := result
    refine ⟨?_, grown.trans ⟨extended.kept, extended.allocated⟩, fun s => ?_, ?_⟩
    · simpa only [map_cons, append_assoc, singleton_append] using linked
    · rw [defined s, addReader_defined, nodes]
    · simp only [map_cons, List.cons.injEq]
      exact ⟨by rw [extended.kept pred key named], keys⟩

theorem define_spec [DecidableEq K] (valid : graph.Valid)
    (undefined : (graph.nodes slot).defined = none) (live : graph.index.key slot ≠ none)
    (next : Definition K I E) (allocated : List Slot) : (graph.define slot next allocated).1.Valid ∧
      Extends graph (graph.define slot next allocated).1 allocated
        (graph.define slot next allocated).2 ∧
      (∀ s, s ≠ slot → ((graph.define slot next allocated).1.nodes s).defined =
        (graph.nodes s).defined) ∧
      (graph.define slot next allocated).1.definitionAt slot = some next := by
  obtain ⟨linked, extended, defined, keys⟩ :=
    link_spec slot next.preds graph allocated [] ((linking_nil slot).mpr valid)
  unfold define
  generalize link slot graph allocated next.preds = result at linked extended defined keys
  obtain ⟨graph₁, allocated₁, preds⟩ := result
  simp only [nil_append] at linked extended defined keys
  have slots : ∀ s, ({ graph₁ with
        nodes := graph₁.setDefined slot (some (next.input, preds))
        defined := graph₁.defined + 1 }).predSlots s =
      if s = slot then preds.map Prod.fst else graph₁.predSlots s := by
    intro s
    by_cases at_slot : s = slot
    · simp only [predSlots, setDefined_defined, if_pos at_slot]
    · simp only [predSlots, setDefined_defined, if_neg at_slot]
  have empty : graph₁.predSlots slot = [] := by
    simp only [predSlots, defined slot, undefined]
  refine ⟨⟨linked.index, fun s present => ?_, fun s pred member => ?_, fun pred s => ?_⟩,
    ⟨extended.kept, extended.allocated⟩, fun s away => ?_, ?_⟩
  · by_cases at_slot : s = slot
    · rw [at_slot]
      exact extended.live live
    · rw [setDefined_defined, if_neg at_slot] at present
      exact linked.defined_live s present
  · rw [slots] at member
    by_cases at_slot : s = slot
    · rw [if_pos at_slot] at member
      exact linked.extra_live pred member
    · rw [if_neg at_slot] at member
      exact linked.preds_live s pred member
  · rw [slots, setDefined_readers, linked.readers]
    by_cases at_slot : s = slot
    · subst at_slot
      simp only [empty, not_mem_nil, true_and, false_or, if_true]
    · simp only [at_slot, false_and, or_false, if_false]
  · rw [setDefined_defined, if_neg away, defined s]
  · have pairs : preds.filterMap (fun pair => (graph₁.index.key pair.1).map (·, pair.2)) =
        next.preds := by
      have mapped : (preds.map fun pair => (graph₁.index.key pair.1, pair.2)).filterMap
          (fun pair => pair.1.map (·, pair.2)) = next.preds := by
        rw [keys, filterMap_map]
        simp
      rwa [filterMap_map] at mapped
    simp only [definitionAt, setDefined_defined, if_true, map_some, pairs]

private theorem pairs_same [DecidableEq K] [DecidableEq E] (index : DenseIndex K)
    (preds : List (Slot × E)) (next : List (K × E))
    (live : ∀ pair ∈ preds, index.key pair.1 ≠ none) :
    (preds.length == next.length && (preds.zip next).all fun pair =>
        decide (pair.1.2 = pair.2.2) && decide (index.key pair.1.1 = some pair.2.1)) ↔
      preds.filterMap (fun pair => (index.key pair.1).map (·, pair.2)) = next := by
  induction preds generalizing next with
  | nil => cases next <;> simp
  | cons pair preds ih =>
    obtain ⟨key, named⟩ := ne_none_iff_exists'.mp (live pair mem_cons_self)
    have head : (pair :: preds).filterMap (fun pair => (index.key pair.1).map (·, pair.2)) =
        (key, pair.2) :: preds.filterMap fun pair => (index.key pair.1).map (·, pair.2) := by
      simp [named]
    rw [head]
    cases next with
    | nil => simp
    | cons want next =>
      have tail := ih next fun pair member => live pair (mem_cons_of_mem _ member)
      simp only [length_cons, zip_cons_cons, all_cons, named, Bool.and_eq_true,
        beq_iff_eq, decide_eq_true_eq, Nat.add_right_cancel_iff, Option.some.injEq,
        List.cons.injEq, Prod.ext_iff] at tail ⊢
      rw [← tail]
      tauto

theorem same_iff [DecidableEq K] [DecidableEq I] [DecidableEq E]
    (preds_live : ∀ pred ∈ graph.predSlots slot, graph.index.key pred ≠ none)
    (next : Option (Definition K I E)) : graph.same slot next ↔ graph.definitionAt slot = next := by
  unfold same definitionAt
  cases held : (graph.nodes slot).defined with
  | none => cases next <;> simp
  | some definition =>
    obtain ⟨input, preds⟩ := definition
    cases next with
    | none => simp
    | some next =>
      have live : ∀ pair ∈ preds, graph.index.key pair.1 ≠ none := by
        intro pair member
        refine preds_live pair.1 ?_
        simp only [predSlots, held]
        exact mem_map_of_mem member
      have pairs := pairs_same graph.index preds next.preds live
      obtain ⟨wanted, wantedPreds⟩ := next
      simp only [map_some, Option.some.injEq, Definition.mk.injEq, ← pairs,
        Bool.and_assoc, Bool.and_eq_true, decide_eq_true_eq]

theorem Extends.key_before {later : KeptGraph K I E} (grown : Extends graph later a b) {key : K}
    (named : later.index.key slot = some key) :
    graph.index.key slot = none ∨ graph.index.key slot = some key := by
  cases was : graph.index.key slot with
  | none => exact .inl rfl
  | some name => exact .inr (by rw [← grown.kept slot name was, named])

section

variable [DecidableEq K] (valid : graph.Valid) (valid' : later.Valid)
  (grown : Extends graph later a b) {key : K}

include valid valid' grown

theorem Extends.definitionOf_eq (held : ∀ s, later.index.key s = some key →
      (later.nodes s).defined = (graph.nodes s).defined) :
    later.definitionOf key = graph.definitionOf key := by
  rw [definitionOf, definitionOf]
  cases old : graph.index.get key with
  | some s =>
    have kept := grown.kept s key ((valid.index.inverse key s).mp old)
    rw [(valid'.index.inverse key s).mpr kept, bind_some, bind_some]
    exact grown.definitionAt_eq (held s kept) (valid.preds_live s)
  | none =>
    cases new : later.index.get key with
    | none => rfl
    | some s =>
      -- A key met only as a predecessor: its slot was dead, so it has no definition.
      have named := (valid'.index.inverse key s).mp new
      have dead : graph.index.key s = none := by
        refine (grown.key_before named).resolve_right fun was => ?_
        rw [(valid.index.inverse key s).mpr was] at old
        exact nomatch old
      have undefined : (graph.nodes s).defined = none := by
        by_contra present
        exact valid.defined_live s present dead
      simp only [bind_some, bind_none, definitionAt, held s named, undefined, map_none]

theorem definitionOf_update (named : later.index.key slot = some key)
    (held : ∀ s, s ≠ slot → (later.nodes s).defined = (graph.nodes s).defined) :
    later.definitionOf = update graph.definitionOf key (later.definitionAt slot) := by
  funext other
  by_cases at_key : other = key
  · subst at_key
    have found : later.index.get other = some slot := (valid'.index.inverse other slot).mpr named
    rw [update_self, definitionOf, found, bind_some]
  · rw [update_of_ne at_key]
    refine Extends.definitionOf_eq valid valid' grown fun s other_named => held s fun equal => ?_
    rw [equal, named] at other_named
    exact at_key (Option.some.inj other_named).symm

end

end KeptGraph

end SolidChecker.Fixpoint
