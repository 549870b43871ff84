/- source: solid-reactive-ir/src/base/fixpoint/monotone.rs -/

import SolidChecker.Fixpoint.Report
import SolidChecker.Foundation.Equations

namespace SolidChecker.Fixpoint

open Foundation.Loop (Returns whileLoop whileLoop_returns)
open Foundation.Equations List Function
open KeptGraph (coneKeys)

/-- The kept solver. A slot past the end of the value vector reads bottom, which is
what the vector is grown with. -/
structure Monotone (K V E : Type*) where
  graph : KeptGraph K V E
  values : Slot → V

structure Worklist (V : Type*) where
  values : Slot → V
  queued : Slot → Bool
  queue : List Slot

variable {K V E : Type*}

section

variable [DecidableEq K] [SemilatticeSup V] [OrderBot V] [DecidableEq V] [DecidableEq E]

def joinPreds {P : Type*} (transfer : E → V → V) (values : P → V) (direct : V)
    (preds : List (P × E)) : V :=
  preds.foldl (fun next pair => next ⊔ transfer pair.2 (values pair.1)) direct

namespace Monotone

def empty : Monotone K V E := ⟨KeptGraph.empty, fun _ => ⊥⟩

def direct (graph : KeptGraph K V E) (slot : Slot) : V :=
  match (graph.nodes slot).defined with
  | none => ⊥
  | some (direct, _) => direct

def enqueue (inCone : Slot → Bool) (work : Worklist V) (reader : Slot) : Worklist V :=
  if inCone reader && !work.queued reader then
    { work with
      queued := Function.update work.queued reader true
      queue := work.queue ++ [reader] }
  else work

def solveStep (graph : KeptGraph K V E) (transfer : E → V → V) (inCone : Slot → Bool)
    (work : Worklist V) : Option (Worklist V) :=
  match work.queue with
  | [] => none
  | slot :: queue =>
    let queued := Function.update work.queued slot false
    match (graph.nodes slot).defined with
    | none => some ⟨work.values, queued, queue⟩
    | some (direct, preds) =>
      let next := joinPreds transfer work.values direct preds
      if next = work.values slot then some ⟨work.values, queued, queue⟩
      else some ((graph.readers slot).foldl (enqueue inCone)
        ⟨Function.update work.values slot next, queued, queue⟩)

def solve (graph : KeptGraph K V E) (transfer : E → V → V) (fuel : ℕ) (values : Slot → V)
    (cone : Finset Slot) : Option (Slot → V) :=
  let reset := fun slot => if slot ∈ cone then direct graph slot else values slot
  (whileLoop (solveStep graph transfer fun slot => decide (slot ∈ cone)) fuel
    ⟨reset, fun slot => decide (slot ∈ cone), cone.sort (· ≤ ·)⟩).map Worklist.values

/-- The slots to solve again, and whether that is all of them: seeds enough for a
fresh solve need no cone walk. -/
def chooseCone {I : Type*} (graph : KeptGraph K I E) (fuel : ℕ) (seeds : Finset Slot)
    (forceFresh : Bool) : Option (Finset Slot × Bool) :=
  let nodes := graph.index.len
  if forceFresh || freshCone seeds.card nodes then some (graph.slots, true)
  else
    (graph.cone fuel seeds).bind fun cone =>
      if freshCone cone.card nodes then some (graph.slots, true) else some (cone, false)

variable (solver : Monotone K V E)

/-- Applies definition changes and re-solves; `forceFresh` solves every node whatever
the cone. -/
def updateWith (fuel : ℕ) (changes : List (Change K V E)) (transfer : E → V → V) (forceFresh : Bool)
    : Option (Monotone K V E × Solved K) :=
  let (graph, applied) := solver.graph.apply changes
  let values := fun slot => if slot ∈ applied.allocated then ⊥ else solver.values slot
  (chooseCone graph fuel applied.seeds forceFresh).bind fun (cone, fresh) =>
    (solve graph transfer fuel values cone).bind fun solved =>
      some (⟨graph.sweep applied, solved⟩,
        ⟨changedKeys graph applied (fun slot => some (values slot))
          (fun slot => some (solved slot)) cone, cone.card, fresh⟩)

def update (fuel : ℕ) (changes : List (Change K V E)) (transfer : E → V → V) :
    Option (Monotone K V E × Solved K) :=
  solver.updateWith fuel changes transfer false

def replace (fuel : ℕ) (definitions : List (K × Definition K V E)) (transfer : E → V → V) :
    Option (Monotone K V E × Solved K) :=
  solver.update fuel (solver.graph.diff definitions) transfer

def value (key : K) : Option V :=
  valueOf solver.graph (fun slot => some (solver.values slot)) key

def run (fuel : ℕ) (transfer : E → V → V) (solver : Monotone K V E) :
    List (List (Change K V E)) → Option (Monotone K V E)
  | [] => some solver
  | changes :: later =>
    (solver.update fuel changes transfer).bind fun (next, _) => run fuel transfer next later

end Monotone

end

section

variable [SemilatticeSup V] (transfer : E → V → V)
  (monotone : ∀ e v w, v ≤ w → transfer e v ≤ transfer e w)

include monotone in
private theorem joinPreds_mono {P : Type*} {v w : P → V} (preds : List (P × E))
    (below : ∀ pair ∈ preds, v pair.1 ≤ w pair.1) {a b : V} (start : a ≤ b) :
    joinPreds transfer v a preds ≤ joinPreds transfer w b preds := by
  induction preds generalizing a b with
  | nil => exact start
  | cons pair preds ih =>
    refine ih (fun p member => below p (mem_cons_of_mem _ member)) ?_
    exact sup_le_sup start (monotone _ _ _ (below pair mem_cons_self))

private theorem direct_le_joinPreds {P : Type*} (values : P → V) (preds : List (P × E)) (direct : V) :
    direct ≤ joinPreds transfer values direct preds := by
  induction preds generalizing direct with
  | nil => exact le_rfl
  | cons pair preds ih => exact le_trans le_sup_left (ih _)

private theorem joinPreds_congr {P Q : Type*} {v : P → V} {w : Q → V} {preds : List (P × E)}
    {others : List (Q × E)} (same : preds.map (fun pair => transfer pair.2 (v pair.1)) =
      others.map fun pair => transfer pair.2 (w pair.1)) (direct : V) :
    joinPreds transfer v direct preds = joinPreds transfer w direct others := by
  rw [joinPreds, joinPreds, ← foldl_map (g := (· ⊔ ·)), same, foldl_map]

variable [OrderBot V]

/-- The equations `value n = direct n ⊔ ⨆ transfer e (value p)`; an undefined key is
bottom. -/
def equations (definitions : K → Option (Definition K V E)) : System K V where
  rhs key v :=
    match definitions key with
    | none => ⊥
    | some definition => joinPreds transfer v definition.input definition.preds
  reads key := {p | ∃ definition, definitions key = some definition ∧
    p ∈ definition.preds.map Prod.fst}
  rhs_mono := by
    intro key v w below
    cases held : definitions key with
    | none => exact le_rfl
    | some definition =>
      refine joinPreds_mono transfer monotone _ (fun pair member => ?_) le_rfl
      exact below pair.1 ⟨definition, held, mem_map_of_mem member⟩

end

namespace Monotone

/-! The worklist. Slots of the cone that are not queued satisfy their equation; a slot
that moves puts its readers inside the cone back on the queue. -/

variable {cone : Finset Slot} {slot : Slot} {work next : Worklist V}

structure QueueOk (cone : Finset Slot) (work : Worklist V) : Prop where
  nodup : work.queue.Nodup
  flags : ∀ s, work.queued s = true ↔ s ∈ work.queue
  inside : ∀ s ∈ work.queue, s ∈ cone

section

variable (ok : QueueOk cone work)
include ok

private theorem queueOk_pop {queue : List Slot}
    (head : work.queue = slot :: queue) (values : Slot → V) :
    QueueOk cone ⟨values, Function.update work.queued slot false, queue⟩ := by
  have nodup := ok.nodup
  rw [head, nodup_cons] at nodup
  refine ⟨nodup.2, fun s => ?_, fun s member => ok.inside s ?_⟩
  · by_cases at_slot : s = slot
    · subst at_slot
      simp only [update_self, Bool.false_eq_true, nodup.1]
    · simp only [Function.update_of_ne at_slot, ok.flags, head, mem_cons, at_slot, false_or]
  · rw [head]
    exact mem_cons_of_mem _ member

private theorem queueOk_enqueue (readers : List Slot) :
    QueueOk cone (readers.foldl (enqueue fun s => s ∈ cone) work) ∧
      (readers.foldl (enqueue fun s => s ∈ cone) work).values = work.values ∧
      ∀ s, s ∈ (readers.foldl (enqueue fun s => s ∈ cone) work).queue ↔
        s ∈ work.queue ∨ (s ∈ readers ∧ s ∈ cone) := by
  induction readers generalizing work with
  | nil => exact ⟨ok, rfl, by simp⟩
  | cons reader readers ih =>
    have step : QueueOk cone (enqueue (fun s => s ∈ cone) work reader) ∧
        (enqueue (fun s => s ∈ cone) work reader).values = work.values ∧
        ∀ s, s ∈ (enqueue (fun s => s ∈ cone) work reader).queue ↔
          s ∈ work.queue ∨ (s = reader ∧ s ∈ cone) := by
      unfold enqueue
      have flag := ok.flags reader
      split
      · rename_i waits
        simp only [Bool.and_eq_true, decide_eq_true_eq, Bool.not_eq_true'] at waits
        have absent : reader ∉ work.queue := fun member => by
          rw [flag.mpr member] at waits
          exact nomatch waits.2
        refine ⟨⟨?_, fun s => ?_, fun s member => ?_⟩, rfl, fun s => ?_⟩
        · simpa only [concat_eq_append] using ok.nodup.concat absent
        · by_cases at_reader : s = reader
          · simp [at_reader]
          · simp [at_reader, ok.flags]
        · rcases mem_append.mp member with old | new
          · exact ok.inside s old
          · rw [mem_singleton.mp new]
            exact waits.1
        · rw [mem_append, mem_singleton]
          refine or_congr_right ⟨fun equal => ⟨equal, equal ▸ waits.1⟩, fun held => held.1⟩
      · rename_i skipped
        refine ⟨ok, rfl, fun s => ?_⟩
        simp only [Bool.and_eq_true, decide_eq_true_eq, Bool.not_eq_true', not_and,
          Bool.not_eq_false] at skipped
        simp only [iff_self_or]
        rintro ⟨rfl, member⟩
        exact flag.mp (skipped member)
    obtain ⟨ok', values', mem'⟩ := step
    obtain ⟨final_ok, final_values, final_mem⟩ := ih ok'
    rw [foldl_cons]
    refine ⟨final_ok, final_values.trans values', fun s => ?_⟩
    rw [final_mem, mem', mem_cons]
    tauto

end

variable [SemilatticeSup V] [OrderBot V] (transfer : E → V → V)
  (monotone : ∀ e v w, v ≤ w → transfer e v ≤ transfer e w) {graph : KeptGraph K V E}

def slotRhs (graph : KeptGraph K V E) (values : Slot → V) (slot : Slot) : V :=
  match (graph.nodes slot).defined with
  | none => ⊥
  | some (direct, preds) => joinPreds transfer values direct preds

private theorem slotRhs_congr {v w : Slot → V}
    (same : ∀ pred ∈ graph.predSlots slot, v pred = w pred) :
    slotRhs transfer graph v slot = slotRhs transfer graph w slot := by
  unfold slotRhs
  unfold KeptGraph.predSlots at same
  cases held : (graph.nodes slot).defined with
  | none => rfl
  | some definition =>
    simp only [held] at same
    refine joinPreds_congr transfer (map_congr_left fun pair member => ?_) definition.1
    rw [same pair.1 (mem_map_of_mem member)]

variable [DecidableEq K]

def assignment (graph : KeptGraph K V E) (values : Slot → V) (key : K) : V :=
  match graph.index.get key with
  | none => ⊥
  | some slot => values slot

variable {key : K}

theorem assignment_of_key (valid : graph.index.Valid) (named : graph.index.key slot = some key)
    (values : Slot → V) : assignment graph values key = values slot := by
  rw [assignment, (valid.inverse key slot).mpr named]

private theorem assignment_congr (valid : graph.index.Valid) {v w : Slot → V}
    (same : ∀ slot, graph.index.key slot = some key → v slot = w slot) :
    assignment graph v key = assignment graph w key := by
  unfold assignment
  cases held : graph.index.get key with
  | none => rfl
  | some slot => exact same slot ((valid.inverse key slot).mp held)

private theorem assignment_update (valid : graph.index.Valid) (named : graph.index.key slot = some key)
    (values : Slot → V) (value : V) : assignment graph (Function.update values slot value) =
      Function.update (assignment graph values) key value := by
  funext other
  by_cases at_key : other = key
  · rw [at_key, assignment_of_key valid named, update_self, update_self]
  · rw [update_of_ne at_key]
    refine assignment_congr valid fun s other_named => update_of_ne (fun equal => ?_) _ _
    rw [equal, named] at other_named
    exact at_key (Option.some.inj other_named).symm

private theorem rhs_of_key (valid : graph.Valid) (named : graph.index.key slot = some key)
    (values : Slot → V) :
    (equations transfer monotone graph.definitionOf).rhs key (assignment graph values) =
      slotRhs transfer graph values slot := by
  simp only [equations, KeptGraph.definitionOf_of_key valid.index named, KeptGraph.definitionAt,
    slotRhs]
  cases held : (graph.nodes slot).defined with
  | none => rfl
  | some definition =>
    obtain ⟨direct, preds⟩ := definition
    refine joinPreds_congr transfer ?_ direct
    rw [map_filterMap, ← filterMap_eq_map']
    refine filterMap_congr fun pair member => ?_
    have listed : pair.1 ∈ graph.predSlots slot := by
      simp only [KeptGraph.predSlots, held]
      exact mem_map_of_mem member
    obtain ⟨name, pred⟩ := Option.ne_none_iff_exists'.mp (valid.preds_live slot pair.1 listed)
    rw [pred, Option.map_some, Option.map_some, assignment_of_key valid.index pred]

structure Working (graph : KeptGraph K V E) (cone : Finset Slot) (outside : Slot → V)
    (work : Worklist V) : Prop where
  ok : QueueOk cone work
  climbing : Climbing (equations transfer monotone graph.definitionOf) (coneKeys graph cone)
    (assignment graph work.values)
  held : ∀ s, s ∉ cone → work.values s = outside s
  settled : ∀ s ∈ cone, s ∉ work.queue → work.values s = slotRhs transfer graph work.values s

variable {outside : Slot → V}

private theorem working_start {values : Slot → V} (valid : graph.Valid) {old : System K V}
    (agree : AgreeOutside old (equations transfer monotone graph.definitionOf)
      (coneKeys graph cone)) (least : LocallyLeast old (assignment graph values)) :
    Working transfer monotone graph cone values
      ⟨fun slot => if slot ∈ cone then direct graph slot else values slot,
        fun slot => slot ∈ cone, cone.sort (· ≤ ·)⟩ := by
  have direct_le : ∀ slot v, direct graph slot ≤ slotRhs transfer graph v slot := by
    intro slot v
    unfold direct slotRhs
    cases (graph.nodes slot).defined with
    | none => exact le_rfl
    | some definition => exact direct_le_joinPreds transfer v definition.2 definition.1
  have direct_le_rhs : ∀ slot key, graph.index.key slot = some key → ∀ w,
      direct graph slot ≤ (equations transfer monotone graph.definitionOf).rhs key w := by
    intro slot key named w
    simp only [equations, KeptGraph.definitionOf_of_key valid.index named,
      KeptGraph.definitionAt, direct]
    cases (graph.nodes slot).defined with
    | none => exact le_rfl
    | some definition => exact direct_le_joinPreds transfer w _ definition.1
  refine ⟨⟨Finset.sort_nodup _ _, fun s => ?_, fun s member => ?_⟩, ⟨?_, ?_⟩, fun s away => ?_,
    fun s member idle => ?_⟩
  · simp only [decide_eq_true_eq, Finset.mem_sort]
  · exact (Finset.mem_sort _).mp member
  · rintro key ⟨slot, inside, named⟩
    rw [assignment_of_key valid.index named, rhs_of_key transfer monotone valid named]
    simp only [inside, if_true]
    exact direct_le slot _
  · intro A closed w pre key member
    by_cases in_cone : key ∈ coneKeys graph cone
    · obtain ⟨slot, inside, named⟩ := in_cone
      rw [assignment_of_key valid.index named]
      simp only [inside, if_true]
      exact (direct_le_rhs slot key named w).trans (pre key member)
    · have unchanged : assignment graph
          (fun slot => if slot ∈ cone then direct graph slot else values slot) key =
            assignment graph values key :=
        assignment_congr valid.index fun slot named =>
          if_neg fun inside => in_cone ⟨slot, inside, named⟩
      rw [unchanged]
      exact agree.least_outside least closed pre key member in_cone
  · simp only [away, if_false]
  · exact absurd ((Finset.mem_sort _).mpr member) idle

section

variable (valid : graph.Valid) (live : ∀ s ∈ cone, graph.index.key s ≠ none)
  (working : Working transfer monotone graph cone outside work)
include valid live working

private theorem Working.ascending (inside : slot ∈ cone) :
    work.values slot ≤ slotRhs transfer graph work.values slot := by
  obtain ⟨key, named⟩ := Option.ne_none_iff_exists'.mp (live slot inside)
  have below := working.climbing.ascending key ⟨slot, inside, named⟩
  rwa [assignment_of_key valid.index named, rhs_of_key transfer monotone valid named] at below

variable [DecidableEq V] (turn : solveStep graph transfer (fun s => s ∈ cone) work = some next)
include turn

private theorem solveStep_cases : ∃ slot queue, work.queue = slot :: queue ∧
      ((work.values slot = slotRhs transfer graph work.values slot ∧
          next = ⟨work.values, Function.update work.queued slot false, queue⟩) ∨
        (work.values slot ≠ slotRhs transfer graph work.values slot ∧
          next = (graph.readers slot).foldl (enqueue fun s => s ∈ cone)
            ⟨Function.update work.values slot (slotRhs transfer graph work.values slot),
              Function.update work.queued slot false, queue⟩)) := by
  cases head : work.queue with
  | nil => simp only [solveStep, head, reduceCtorEq] at turn
  | cons slot queue =>
    refine ⟨slot, queue, rfl, ?_⟩
    have inside : slot ∈ cone := working.ok.inside slot (by rw [head]; exact mem_cons_self)
    have below := Working.ascending transfer monotone valid live working inside
    simp only [solveStep, head] at turn
    cases held : (graph.nodes slot).defined with
    | none =>
      simp only [held, Option.some.injEq] at turn
      have bottom : slotRhs transfer graph work.values slot = ⊥ := by
        simp only [slotRhs, held]
      refine .inl ⟨?_, turn.symm⟩
      rw [bottom] at below ⊢
      exact le_bot_iff.mp below
    | some definition =>
      obtain ⟨direct, preds⟩ := definition
      have next_eq : slotRhs transfer graph work.values slot =
          joinPreds transfer work.values direct preds := by simp only [slotRhs, held]
      simp only [held, ← next_eq] at turn
      by_cases quiet : slotRhs transfer graph work.values slot = work.values slot
      · simp only [quiet, if_true, Option.some.injEq] at turn
        exact .inl ⟨quiet.symm, turn.symm⟩
      · simp only [quiet, if_false, Option.some.injEq] at turn
        exact .inr ⟨fun equal => quiet equal.symm, turn.symm⟩

private theorem working_step : Working transfer monotone graph cone outside next := by
  obtain ⟨slot, queue, head, ⟨quiet, rfl⟩ | ⟨-, rfl⟩⟩ :=
    solveStep_cases transfer monotone valid live working turn
  · refine ⟨queueOk_pop working.ok head _, working.climbing, working.held, fun s member idle => ?_⟩
    by_cases at_slot : s = slot
    · rw [at_slot]
      exact quiet
    · refine working.settled s member ?_
      rw [head, mem_cons, not_or]
      exact ⟨at_slot, idle⟩
  · have inside : slot ∈ cone := working.ok.inside slot (by rw [head]; exact mem_cons_self)
    obtain ⟨key, named⟩ := Option.ne_none_iff_exists'.mp (live slot inside)
    obtain ⟨ok, values, queued⟩ := queueOk_enqueue (queueOk_pop working.ok head
      (Function.update work.values slot (slotRhs transfer graph work.values slot)))
      (graph.readers slot)
    simp only at values queued
    refine ⟨ok, ?_, fun s away => ?_, fun s member idle => ?_⟩
    · rw [values, assignment_update valid.index named, ← rhs_of_key transfer monotone valid named]
      exact working.climbing.update ⟨slot, inside, named⟩
    · have different : s ≠ slot := fun equal => away (equal ▸ inside)
      rw [values, update_of_ne different]
      exact working.held s away
    · rw [queued, not_or] at idle
      have unread : slot ∉ graph.predSlots s := fun read => by
        refine idle.2 ⟨?_, member⟩
        rw [KeptGraph.readers, Finset.mem_sort, valid.readers]
        exact read
      have same : slotRhs transfer graph
          (Function.update work.values slot (slotRhs transfer graph work.values slot)) s =
            slotRhs transfer graph work.values s := by
        refine slotRhs_congr transfer fun pred read => update_of_ne ?_ _ _
        exact fun equal => unread (equal ▸ read)
      rw [values, same]
      by_cases at_slot : s = slot
      · rw [at_slot, update_self]
      · rw [update_of_ne at_slot]
        refine working.settled s member ?_
        rw [head, mem_cons, not_or]
        exact ⟨at_slot, idle.1⟩

private theorem working_descends : Prod.Lex (fun w v : cone → V => v < w) (· < ·)
      ((fun s : cone => next.values s), next.queue.length)
      ((fun s : cone => work.values s), work.queue.length) := by
  obtain ⟨slot, queue, head, ⟨-, rfl⟩ | ⟨moved, rfl⟩⟩ :=
    solveStep_cases transfer monotone valid live working turn
  · rw [head]
    exact .right _ (by simp)
  · refine .left _ _ ?_
    have inside : slot ∈ cone := working.ok.inside slot (by rw [head]; exact mem_cons_self)
    have below := Working.ascending transfer monotone valid live working inside
    rw [(queueOk_enqueue (queueOk_pop working.ok head _) (graph.readers slot)).2.1]
    refine Pi.lt_def.mpr ⟨fun s => ?_, ⟨slot, inside⟩, ?_⟩
    · by_cases at_slot : s.1 = slot
      · simp only [at_slot, update_self]
        exact below
      · simp only [update_of_ne at_slot, le_refl]
    · simp only [update_self]
      exact lt_of_le_of_ne below moved

end

theorem solve_spec [DecidableEq V] [WellFoundedGT V] (values : Slot → V) (valid : graph.Valid)
    (live : ∀ s ∈ cone, graph.index.key s ≠ none) {old : System K V}
    (agree : AgreeOutside old (equations transfer monotone graph.definitionOf)
      (coneKeys graph cone)) (least : LocallyLeast old (assignment graph values))
    (solution : Solution old (assignment graph values)) :
    ∃ solved, Returns (fun fuel => solve graph transfer fuel values cone) solved ∧
      (∀ s, s ∉ cone → solved s = values s) ∧
      Solution (equations transfer monotone graph.definitionOf) (assignment graph solved) ∧
      LocallyLeast (equations transfer monotone graph.definitionOf) (assignment graph solved) := by
  obtain ⟨work, ⟨enough, returned⟩, working, stopped⟩ :=
    whileLoop_returns (solveStep graph transfer fun slot => slot ∈ cone)
      (Working transfer monotone graph cone values)
      (fun _ _ working turn => working_step transfer monotone valid live working turn)
      (InvImage (Prod.Lex (fun w v => v < w) (· < ·))
        fun work => ((fun s : cone => work.values s), work.queue.length))
      (InvImage.wf _ (WellFounded.prod_lex (ascent_wellFounded cone) Nat.lt_wfRel.wf))
      (fun _ _ working turn => working_descends transfer monotone valid live working turn)
      _ (working_start transfer monotone valid agree least)
  have empty : work.queue = [] := by
    cases queue : work.queue with
    | nil => rfl
    | cons slot rest =>
      simp only [solveStep, queue] at stopped
      split at stopped
      · exact nomatch stopped
      · split at stopped
        · exact nomatch stopped
        · exact nomatch stopped
  refine ⟨work.values, ⟨enough, fun fuel bound => ?_⟩, working.held, fun key => ?_,
    working.climbing.below⟩
  · simp only [solve, returned fuel bound, Option.map_some]
  · by_cases in_cone : key ∈ coneKeys graph cone
    · obtain ⟨slot, inside, named⟩ := in_cone
      rw [rhs_of_key transfer monotone valid named, assignment_of_key valid.index named]
      refine working.settled slot inside ?_
      rw [empty]
      exact not_mem_nil
    · refine agree.solves_outside solution (fun other away => ?_) key in_cone
      exact assignment_congr valid.index fun slot named =>
        working.held slot fun inside => away ⟨slot, inside, named⟩

end Monotone

end SolidChecker.Fixpoint
