/- source: solid-reactive-ir/src/base/fixpoint/rounds.rs -/

import SolidChecker.Fixpoint.RoundReplay

namespace SolidChecker.Fixpoint.RoundReplay

open Foundation.Loop (Returns)
open Foundation.Rounds List
open KeptGraph (AppliedTo IsCone Swept coneKeys override definitionsAfter definitionOf_of_key
  definitionAt_eq_none slot_of_definitionOf)
open scoped BigOperators

variable {K I V E : Type*} (rules : Rules K I V E)

/-! The loop over the keys, without a graph: what the solver is meant to compute. -/

variable (definitions : K → Option (Definition K I E))

def jacobiStep (x : K → Option V) (key : K) : Option V :=
  match definitions key, x key with
  | some definition, some own =>
    some (rules.step key definition.input own (definition.preds.map fun pair => (pair.2, x pair.1)))
  | _, _ => none

def jacobi (definitions : K → Option (Definition K I E)) : ℕ → K → Option V
  | 0 => fun key => (definitions key).map fun definition => rules.init key definition.input
  | round + 1 => jacobiStep rules definitions (jacobi definitions round)

private theorem jacobi_iteration :
    IsIteration (jacobiStep rules definitions) (jacobi rules definitions) := fun _ => rfl

private theorem jacobi_eq_none (round : ℕ) (key : K) :
    jacobi rules definitions round key = none ↔ definitions key = none := by
  induction round with
  | zero => simp only [jacobi, Option.map_eq_none_iff]
  | succ round ih =>
    simp only [jacobi, jacobiStep]
    cases defined : definitions key with
    | none => simp
    | some definition =>
      have present : jacobi rules definitions round key ≠ none := fun absent => by
        rw [ih, defined] at absent
        exact nomatch absent
      obtain ⟨own, held⟩ := Option.ne_none_iff_exists'.mp present
      simp [held]

private theorem jacobi_steady (key : K) :
    Steady fun round => jacobi rules definitions round key := fun round => by
  simp only [jacobi_eq_none]

variable {key : K}

private theorem jacobi_undefined {definitions : K → Option (Definition K I E)}
    (undefined : definitions key = none) (round other : ℕ) :
    jacobi rules definitions round key = jacobi rules definitions other key := by
  rw [(jacobi_eq_none rules definitions round key).mpr undefined,
    (jacobi_eq_none rules definitions other key).mpr undefined]

private theorem jacobi_outside {old new : K → Option (Definition K I E)} {cone : Set K}
    (same : ∀ key, key ∉ cone → old key = new key)
    (dependents : ∀ key definition, new key = some definition →
      ∀ name ∈ definition.preds.map Prod.fst, name ∈ cone → key ∈ cone)
    (round : ℕ) (key : K) (away : key ∉ cone) :
    jacobi rules old round key = jacobi rules new round key := by
  induction round generalizing key with
  | zero => simp only [jacobi, same key away]
  | succ round ih =>
    simp only [jacobi, jacobiStep, same key away, ih key away]
    cases defined : new key with
    | none => rfl
    | some definition =>
      have preds : (definition.preds.map fun pair =>
            (pair.2, jacobi rules old round pair.1)) =
          definition.preds.map fun pair => (pair.2, jacobi rules new round pair.1) := by
        refine map_congr_left fun pair member => ?_
        rw [ih pair.1 fun inside =>
          away (dependents key definition defined _ (mem_map_of_mem member) inside)]
      cases jacobi rules new round key with
      | none => rfl
      | some own => simp only [preds]

section

variable [DecidableEq K] {graph : KeptGraph K I E} {cone : Finset Slot}
  {stored : Slot → Trajectory V}

private theorem initial_eq (valid : graph.Valid) {slot : Slot}
    (named : graph.index.key slot = some key) :
    initial rules graph slot = jacobi rules graph.definitionOf 0 key := by
  simp only [initial, named, jacobi, definitionOf_of_key valid.index named, KeptGraph.definitionAt]
  cases (graph.nodes slot).defined with
  | none => rfl
  | some definition => rfl

private theorem nextValue_eq (valid : graph.Valid) {current : Slot → Option V} {round : ℕ}
    (visible : ∀ pred name, graph.index.key pred = some name →
      seen cone stored current round pred = jacobi rules graph.definitionOf round name)
    {slot : Slot} (named : graph.index.key slot = some key)
    (own : current slot = jacobi rules graph.definitionOf round key) :
    nextValue rules graph cone stored current round slot =
      jacobi rules graph.definitionOf (round + 1) key := by
  simp only [jacobi, jacobiStep, nextValue, named, own, definitionOf_of_key valid.index named]
  cases held : (graph.nodes slot).defined with
  | none => simp only [KeptGraph.definitionAt, held, Option.map_none]
  | some definition =>
    obtain ⟨input, preds⟩ := definition
    have live : ∀ pair ∈ preds, graph.index.key pair.1 ≠ none := by
      intro pair member
      refine valid.preds_live slot pair.1 ?_
      simp only [KeptGraph.predSlots, held]
      exact mem_map_of_mem member
    have sees : ((preds.filterMap fun pair => (graph.index.key pair.1).map (·, pair.2)).map
          fun pair => (pair.2, jacobi rules graph.definitionOf round pair.1)) =
        preds.map fun pair => (pair.2, seen cone stored current round pair.1) := by
      clear held
      induction preds with
      | nil => rfl
      | cons pair preds ih =>
        obtain ⟨name, pred_named⟩ :=
          Option.ne_none_iff_exists'.mp (live pair mem_cons_self)
        have head : (pair :: preds).filterMap
              (fun pair => (graph.index.key pair.1).map (·, pair.2)) =
            (name, pair.2) ::
              preds.filterMap fun pair => (graph.index.key pair.1).map (·, pair.2) := by
          simp [pred_named]
        rw [head, map_cons, map_cons, visible pair.1 name pred_named,
          ih fun p member => live p (mem_cons_of_mem _ member)]
    simp only [KeptGraph.definitionAt, held, Option.map_some]
    cases jacobi rules graph.definitionOf round key with
    | none => rfl
    | some own => simp only [sees]

variable [DecidableEq V]

private theorem extend_record {x : ℕ → Option V} (steady : Steady x) (round : ℕ) :
    extend (record x round) (round + 1) (x round) (x (round + 1)) = record x (round + 1) := by
  simp only [extend, record]
  cases value : x (round + 1) with
  | none =>
    have absent : x round = none := (steady round).mpr ((steady (round + 1)).mp value)
    simp [absent]
  | some v =>
    by_cases still : some v = x round
    · simp [still]
    · simp [still]

/-- The loop invariant: after its rounds, the cone's current values and trajectories are
those of the whole loop, and no round so far was quiet. -/
structure Replaying (graph : KeptGraph K I E) (cone : Finset Slot) (state : Replay V) :
    Prop where
  current : ∀ slot ∈ cone, ∀ key, graph.index.key slot = some key →
    state.current slot = jacobi rules graph.definitionOf state.round key
  trajectories : ∀ slot ∈ cone, ∀ key, graph.index.key slot = some key →
    state.trajectories slot =
      record (fun round => jacobi rules graph.definitionOf round key) state.round
  moved : ∀ round, round + 1 ≤ state.round →
    jacobi rules graph.definitionOf (round + 1) ≠ jacobi rules graph.definitionOf round

/-- What the loop relies on outside the cone: the stored rounds are those of the loop,
nothing moves after `outsideLast`, and something moved in that round. -/
structure OutsideOk (graph : KeptGraph K I E) (cone : Finset Slot)
    (stored : Slot → Trajectory V) (outsideLast : ℕ) : Prop where
  stored : ∀ pred, pred ∉ cone → ∀ name, graph.index.key pred = some name → ∀ round,
    valueAt (stored pred) round = jacobi rules graph.definitionOf round name
  still : ∀ key, key ∉ coneKeys graph cone → ∀ round, outsideLast ≤ round →
    jacobi rules graph.definitionOf (round + 1) key = jacobi rules graph.definitionOf round key
  reached : ∀ round, outsideLast = round + 1 → ∃ key,
    jacobi rules graph.definitionOf (round + 1) key ≠ jacobi rules graph.definitionOf round key

private theorem replaying_round {outsideLast : ℕ} (valid : graph.Valid)
    (live : ∀ s ∈ cone, graph.index.key s ≠ none)
    (outside : OutsideOk rules graph cone stored outsideLast) {state : Replay V}
    (replaying : Replaying rules graph cone state) :
    let next := nextValue rules graph cone stored state.current state.round
    (∀ slot ∈ cone, ∀ key, graph.index.key slot = some key →
      next slot = jacobi rules graph.definitionOf (state.round + 1) key) ∧
    (∀ slot ∈ cone, ∀ key, graph.index.key slot = some key →
      extend (state.trajectories slot) (state.round + 1) (state.current slot) (next slot) =
        record (fun round => jacobi rules graph.definitionOf round key) (state.round + 1)) ∧
    (((cone.sort (· ≤ ·)).any (fun slot =>
        decide (next slot ≠ state.current slot) && (next slot).isSome) = false ∧
          outsideLast < state.round + 1) ↔
      jacobi rules graph.definitionOf (state.round + 1) =
        jacobi rules graph.definitionOf state.round) := by
  intro next
  have visible : ∀ pred name, graph.index.key pred = some name →
      seen cone stored state.current state.round pred =
        jacobi rules graph.definitionOf state.round name := by
    intro pred name named
    unfold seen
    by_cases inside : pred ∈ cone
    · rw [if_pos inside]
      exact replaying.current pred inside name named
    · rw [if_neg inside]
      exact outside.stored pred inside name named state.round
  have steps : ∀ slot ∈ cone, ∀ key, graph.index.key slot = some key →
      next slot = jacobi rules graph.definitionOf (state.round + 1) key :=
    fun slot inside key named =>
      nextValue_eq rules valid visible named (replaying.current slot inside key named)
  refine ⟨steps, fun slot inside key named => ?_, ?_, ?_⟩
  · rw [steps slot inside key named, replaying.trajectories slot inside key named,
      replaying.current slot inside key named]
    exact extend_record (jacobi_steady rules graph.definitionOf key) state.round
  · rintro ⟨quiet, past⟩
    funext key
    by_cases inside : key ∈ coneKeys graph cone
    · obtain ⟨slot, member, named⟩ := inside
      rw [← steps slot member key named, ← replaying.current slot member key named]
      rw [any_eq_false] at quiet
      have same := quiet slot ((Finset.mem_sort _).mpr member)
      by_contra differs
      cases value : next slot with
      | some v =>
        rw [value] at differs same
        simp [differs] at same
      | none =>
        -- An undefined slot stays absent, so it cannot have moved.
        rw [steps slot member key named, jacobi_eq_none] at value
        have absent := (jacobi_eq_none rules graph.definitionOf state.round key).mpr value
        rw [← replaying.current slot member key named] at absent
        rw [absent, steps slot member key named, jacobi_eq_none] at differs
        exact differs value
    · exact outside.still key inside state.round (Nat.le_of_lt_succ past)
  · intro quiet
    constructor
    · rw [any_eq_false]
      intro slot member
      rw [Finset.mem_sort] at member
      obtain ⟨key, named⟩ := Option.ne_none_iff_exists'.mp (live slot member)
      have same : next slot = state.current slot := by
        rw [steps slot member key named, replaying.current slot member key named, quiet]
      simp [same]
    · by_contra early
      obtain ⟨last, is_last⟩ : ∃ last, outsideLast = last + 1 := ⟨outsideLast - 1, by omega⟩
      obtain ⟨key, moved⟩ := outside.reached last is_last
      have constant := fun {q : ℕ} (later : state.round ≤ q) =>
        (jacobi_iteration rules graph.definitionOf).constant quiet later
      refine moved ?_
      rw [constant (show state.round ≤ last + 1 by omega),
        constant (show state.round ≤ last by omega)]

private theorem replayLoop_spec {outsideLast cap : ℕ} (valid : graph.Valid)
    (live : ∀ s ∈ cone, graph.index.key s ≠ none)
    (outside : OutsideOk rules graph cone stored outsideLast) (positive : 1 ≤ cap)
    (remaining : ℕ) (state : Replay V) (replaying : Replaying rules graph cone state)
    (running : state.converged = false) (total : state.round + remaining = cap) :
    let final := replayLoop rules graph cone stored outsideLast remaining state
    StopsAt (jacobi rules graph.definitionOf) cap final.round final.converged ∧
      (final.converged → outsideLast < final.round) ∧
      ∀ slot ∈ cone, ∀ key, graph.index.key slot = some key →
        final.trajectories slot =
          record (fun round => jacobi rules graph.definitionOf round key) final.round := by
  induction remaining generalizing state with
  | zero =>
    simp only [replayLoop]
    refine ⟨⟨by omega, by omega, fun r before => replaying.moved r (by omega), ?_, fun _ => ?_⟩,
      ?_, replaying.trajectories⟩
    · simp [running]
    · have last := replaying.moved (state.round - 1) (by omega)
      rw [show state.round - 1 + 1 = state.round by omega] at last
      exact ⟨by omega, last⟩
    · simp [running]
  | succ remaining ih =>
    obtain ⟨steps, logs, quiet_iff⟩ := replaying_round rules valid live outside replaying
    simp only [replayLoop]
    generalize nextValue rules graph cone stored state.current state.round = next
      at steps logs quiet_iff ⊢
    generalize (cone.sort (· ≤ ·)).any (fun slot =>
      decide (next slot ≠ state.current slot) && (next slot).isSome) = moved at quiet_iff ⊢
    by_cases stops : moved = false ∧ outsideLast < state.round + 1
    · have quiet := quiet_iff.mp stops
      simp only [stops.1, stops.2, Bool.not_false, decide_true, Bool.and_self, if_true]
      refine ⟨⟨by omega, by omega, fun r before => replaying.moved r (by omega), fun _ => ?_,
        nofun⟩, fun _ => by omega, logs⟩
      rw [Nat.add_sub_cancel]
      exact quiet
    · have goes_on : (!moved && decide (outsideLast < state.round + 1)) = false := by
        rw [Bool.and_eq_false_iff, Bool.not_eq_false', decide_eq_false_iff_not]
        cases moved <;> simp_all
      simp only [goes_on, Bool.false_eq_true, if_false]
      refine ih _ ⟨steps, logs, fun round bound => ?_⟩ rfl (by simp only; omega)
      rcases Nat.lt_or_ge round state.round with earlier | latest
      · exact replaying.moved round earlier
      · simp only at bound
        have here : round = state.round := by omega
        rw [here]
        exact fun quiet => stops (quiet_iff.mpr quiet)

end

/-! The counts: each slot contributes the last round of its trajectory, if it has one. -/

section

variable (trajectories : Slot → Trajectory V)

def counted (slot : Slot) : Multiset ℕ :=
  match (trajectories slot).getLast? with
  | none => 0
  | some (last, _) => {last}

variable {trajectories : Slot → Trajectory V}

private theorem counted_blank {slot : Slot}
    (blank : trajectories slot = []) : counted trajectories slot = 0 := by
  simp only [counted, blank, getLast?_nil]

private theorem mem_counted {slot : Slot} {round : ℕ} : round ∈ counted trajectories slot ↔
      ∃ value, (trajectories slot).getLast? = some (round, value) := by
  unfold counted
  cases (trajectories slot).getLast? with
  | none => simp
  | some entry => simp [Prod.ext_iff, eq_comm]

private theorem count_eq (counts : Multiset ℕ) (slots : List Slot) :
    count trajectories counts slots = counts + (slots.map (counted trajectories)).sum := by
  induction slots generalizing counts with
  | nil => simp [count]
  | cons slot slots ih =>
    have step : count trajectories counts (slot :: slots) =
        count trajectories (counts + counted trajectories slot) slots := by
      simp only [count, foldl_cons, counted]
      cases (trajectories slot).getLast? with
      | none => simp
      | some entry =>
        have added : entry.1 ::ₘ counts = counts + {entry.1} := by
          rw [← Multiset.singleton_add, add_comm]
        simp only [added]
    rw [step, ih, map_cons, sum_cons, add_assoc]

private theorem uncount_eq (counts : Multiset ℕ) (slots : List Slot) :
    uncount trajectories counts slots = counts - (slots.map (counted trajectories)).sum := by
  induction slots generalizing counts with
  | nil => simp [uncount]
  | cons slot slots ih =>
    have step : uncount trajectories counts (slot :: slots) =
        uncount trajectories (counts - counted trajectories slot) slots := by
      simp only [uncount, foldl_cons, counted]
      cases (trajectories slot).getLast? with
      | none => simp
      | some entry => simp
    rw [step, ih, map_cons, sum_cons, tsub_tsub]

private theorem sum_sort (f : Slot → Multiset ℕ) (slots : Finset Slot) :
    ((slots.sort (· ≤ ·)).map f).sum = ∑ slot ∈ slots, f slot := by
  rw [← sum_toFinset f (Finset.sort_nodup _ _), Finset.sort_toFinset]

private theorem sup_zero_or_mem (counts : Multiset ℕ) : counts.sup = 0 ∨ counts.sup ∈ counts := by
  induction counts using Multiset.induction with
  | empty => exact .inl rfl
  | cons round counts ih =>
    rw [Multiset.sup_cons]
    rcases le_total round counts.sup with below | above
    · rw [sup_eq_right.mpr below]
      rcases ih with zero | member
      · exact .inl zero
      · exact .inr (Multiset.mem_cons_of_mem member)
    · rw [sup_eq_left.mpr above]
      exact .inr (Multiset.mem_cons_self round counts)

end

section

variable [DecidableEq K]

/-- The solver's last solve ran `stop` rounds of the loop over these definitions, and its
trajectories and counts say so. -/
structure Settled [DecidableEq V] (solver : RoundReplay K I V E)
    (definitions : K → Option (Definition K I E)) (stop : ℕ) : Prop where
  stops : StopsAt (jacobi rules definitions) solver.cap stop solver.converged
  trajectories : ∀ slot key, solver.graph.index.key slot = some key →
    solver.trajectories slot = record (fun round => jacobi rules definitions round key) stop
  counts : solver.lastChanges = ∑ slot ∈ solver.graph.slots, counted solver.trajectories slot
  rounds : solver.rounds = stop ∨ ∀ key, definitions key = none

/-- What every update relies on: undefined slots carry no trajectory, and unless the last
solve was capped (or there was none) the state is settled. -/
structure Kept [DecidableEq V] (solver : RoundReplay K I V E)
    (definitions : K → Option (Definition K I E)) : Prop where
  valid : solver.graph.Valid
  table : solver.graph.definitionOf = definitions
  blank : ∀ s, (solver.graph.nodes s).defined = none → solver.trajectories s = []
  present : ∀ s, (solver.graph.nodes s).defined ≠ none → solver.trajectories s ≠ []
  settled : solver.converged = true → ∃ stop, Settled rules solver definitions stop

variable [DecidableEq V]

private theorem new_kept (cap : ℕ) (positive : 1 ≤ cap) :
    Kept rules (new cap positive : RoundReplay K I V E) fun _ => none := by
  refine ⟨KeptGraph.empty_valid, ?_, fun _ _ => rfl, fun s defined => absurd rfl defined, nofun⟩
  funext key
  simp [new, KeptGraph.definitionOf, KeptGraph.empty, DenseIndex.empty, DenseIndex.get]

variable {definitions : K → Option (Definition K I E)} {solver : RoundReplay K I V E} {stop : ℕ}

omit [DecidableEq K] in
private theorem settled_constant (settled : Settled rules solver definitions stop)
    (converged : solver.converged) {round : ℕ} (later : stop - 1 ≤ round) :
    jacobi rules definitions round = jacobi rules definitions (stop - 1) := by
  have quiet : jacobi rules definitions (stop - 1 + 1) = jacobi rules definitions (stop - 1) := by
    rw [Nat.sub_add_cancel settled.stops.positive]
    exact settled.stops.last_quiet converged
  exact (jacobi_iteration rules definitions).constant quiet later

omit [DecidableEq K] in
private theorem settled_valueAt (settled : Settled rules solver definitions stop)
    (converged : solver.converged) {slot : Slot}
    (named : solver.graph.index.key slot = some key) (round : ℕ) :
    valueAt (solver.trajectories slot) round = jacobi rules definitions round key := by
  rw [settled.trajectories slot key named, valueAt_record (jacobi_steady rules definitions key)]
  rcases Nat.le_total round stop with before | after
  · rw [Nat.min_eq_left before]
  · rw [Nat.min_eq_right after,
      settled_constant rules settled converged (show stop - 1 ≤ stop by omega),
      settled_constant rules settled converged (show stop - 1 ≤ round by omega)]

private theorem settled_swept {swept : KeptGraph K I E} (freed : Swept solver.graph swept)
    (blank : ∀ s, (solver.graph.nodes s).defined = none → solver.trajectories s = [])
    (settled : Settled rules solver definitions stop) :
    Settled rules { solver with graph := swept } definitions stop := by
  refine ⟨settled.stops, fun slot key named => settled.trajectories slot key
    (freed.names slot key named), ?_, settled.rounds⟩
  rw [settled.counts]
  refine (Finset.sum_subset (fun s member => ?_) fun s member gone => ?_).symm
  · rw [KeptGraph.mem_slots] at member ⊢
    obtain ⟨key, named⟩ := Option.ne_none_iff_exists'.mp member
    simp [freed.names s key named]
  · rw [KeptGraph.mem_slots] at member gone
    refine counted_blank (blank s ?_)
    by_contra defined
    rw [freed.kept s defined] at gone
    exact gone member

variable {graph : KeptGraph K I E} {applied : Applied K} {changes : List (Change K I E)}

section

variable {cone : Finset Slot} {slot : Slot}

omit [DecidableEq V] in
private theorem outside_coneKeys (valid : graph.Valid) (away : slot ∉ cone)
    (named : graph.index.key slot = some key) : key ∉ coneKeys graph cone := by
  rintro ⟨other, inside, other_named⟩
  exact away (valid.index.slot_unique named other_named ▸ inside)

variable (kept : Kept rules solver definitions) (settled : Settled rules solver definitions stop)
  (batch : AppliedTo solver.graph graph applied changes)
  (isCone : IsCone graph applied.seeds cone)

include kept batch isCone

private theorem outside_slot (away : slot ∉ cone) (named : graph.index.key slot = some key) :
    solver.graph.index.key slot = some key ∨
      (graph.definitionOf key = none ∧ solver.trajectories slot = []) := by
  have found := batch.key_before kept.valid named
  by_cases fresh : slot ∈ applied.allocated
  · have dead : solver.graph.index.key slot = none := by
      rcases (batch.progress.grown.allocated slot).mp fresh with none_yet | ⟨dead, -⟩
      · exact nomatch none_yet
      · exact dead
    have undefined : (solver.graph.nodes slot).defined = none := by
      by_contra defined
      exact kept.valid.defined_live slot defined dead
    refine .inr ⟨?_, kept.blank slot undefined⟩
    have unseeded : slot ∉ applied.seeds := fun seeded => away (isCone.seeded seeded)
    rw [definitionOf_of_key batch.progress.valid.index named, definitionAt_eq_none,
      batch.progress.held slot unseeded, undefined]
  · rw [if_neg fresh] at found
    exact .inl ((kept.valid.index.inverse key slot).mp found)

private theorem outside_jacobi (away : key ∉ coneKeys graph cone) (round : ℕ) :
    jacobi rules definitions round key = jacobi rules graph.definitionOf round key := by
  refine jacobi_outside rules (fun other outside => ?_) (fun other definition defined name
    listed inside => isCone.dependents batch.progress.valid defined listed inside) round key away
  rw [← kept.table]
  exact batch.outside_eq kept.valid isCone outside

include settled

private theorem outside_trajectory (away : slot ∉ cone) (named : graph.index.key slot = some key) :
    solver.trajectories slot =
      record (fun round => jacobi rules graph.definitionOf round key) stop := by
  have outside := outside_coneKeys batch.progress.valid away named
  rcases outside_slot rules kept batch isCone away named with was | ⟨undefined, blank⟩
  · rw [settled.trajectories slot key was]
    congr 1
    funext round
    exact outside_jacobi rules kept batch isCone outside round
  · rw [blank, record_absent]
    intro round
    exact (jacobi_eq_none rules graph.definitionOf round key).mpr undefined

private theorem outside_counts :
    uncount solver.trajectories solver.lastChanges (cone.sort (· ≤ ·)) =
      ∑ slot ∈ graph.slots \ cone, counted solver.trajectories slot := by
  have grown : ∑ slot ∈ solver.graph.slots, counted solver.trajectories slot =
      ∑ slot ∈ graph.slots, counted solver.trajectories slot := by
    refine Finset.sum_subset (fun s member => ?_) fun s _ new => ?_
    · rw [KeptGraph.mem_slots] at member ⊢
      exact batch.progress.grown.live member
    · refine counted_blank (kept.blank s ?_)
      by_contra defined
      exact new (KeptGraph.mem_slots.mpr (kept.valid.defined_live s defined))
  have inside : cone ⊆ graph.slots := fun s member => KeptGraph.mem_slots.mpr (isCone.live s member)
  rw [uncount_eq, sum_sort, settled.counts, grown, ← Finset.sum_sdiff inside, add_tsub_cancel_right]

private theorem outside_ok (converged : solver.converged) :
    OutsideOk rules graph cone solver.trajectories
        (∑ slot ∈ graph.slots \ cone, counted solver.trajectories slot).sup ∧
      (∑ slot ∈ graph.slots \ cone, counted solver.trajectories slot).sup < stop := by
  have valid := batch.progress.valid
  have one := settled.stops.positive
  have constant := fun {q : ℕ} (later : stop - 1 ≤ q) =>
    settled_constant rules settled converged later
  generalize counts_eq : ∑ slot ∈ graph.slots \ cone, counted solver.trajectories slot = counts
  have member_iff : ∀ round, round ∈ counts ↔
      ∃ slot ∈ graph.slots \ cone, round ∈ counted solver.trajectories slot := by
    intro round
    rw [← counts_eq, Multiset.mem_sum]
  -- A counted round is a live outside node's last change.
  have source : ∀ round ∈ counts, round < stop ∧ (0 < round → ∃ key,
      jacobi rules graph.definitionOf round key ≠
        jacobi rules graph.definitionOf (round - 1) key) := by
    intro round member
    obtain ⟨slot, in_slots, at_slot⟩ := (member_iff round).mp member
    obtain ⟨live, away⟩ := Finset.mem_sdiff.mp in_slots
    obtain ⟨key, named⟩ := Option.ne_none_iff_exists'.mp (KeptGraph.mem_slots.mp live)
    obtain ⟨value, last⟩ := mem_counted.mp at_slot
    have log := outside_trajectory rules kept settled batch isCone away named
    have outside := outside_coneKeys valid away named
    rw [log] at last
    obtain ⟨bound, -, moved⟩ :=
      record_last_round (jacobi_steady rules graph.definitionOf key) last
    refine ⟨lt_of_le_of_ne bound fun at_stop => ?_, fun positive => ⟨key, moved positive⟩⟩
    refine moved (at_stop ▸ one) ?_
    rw [at_stop, ← outside_jacobi rules kept batch isCone outside,
      ← outside_jacobi rules kept batch isCone outside, constant (show stop - 1 ≤ stop by omega)]
  refine ⟨⟨fun pred away name named round => ?_, fun key away round past => ?_,
    fun round is_last => ?_⟩, ?_⟩
  · rcases outside_slot rules kept batch isCone away named with was | ⟨undefined, blank⟩
    · rw [settled_valueAt rules settled converged was,
        outside_jacobi rules kept batch isCone (outside_coneKeys valid away named)]
    · rw [blank, (jacobi_eq_none rules graph.definitionOf round name).mpr undefined]
      rfl
  · by_cases undefined : graph.definitionOf key = none
    · exact jacobi_undefined rules undefined _ _
    · obtain ⟨slot, named, -⟩ := slot_of_definitionOf valid.index undefined
      have outside_cone : slot ∉ cone := fun inside => away ⟨slot, inside, named⟩
      have log := outside_trajectory rules kept settled batch isCone outside_cone named
      rcases Nat.lt_or_ge round stop with before | after
      · cases last : (solver.trajectories slot).getLast? with
        | none =>
          have at_stop := record_last (jacobi_steady rules graph.definitionOf key) stop
          rw [← log, last, Option.map_none, eq_comm, jacobi_eq_none] at at_stop
          exact absurd at_stop undefined
        | some entry =>
          have counted_here : entry.1 ∈ counts := by
            refine (member_iff entry.1).mpr ⟨slot, ?_, mem_counted.mpr ⟨entry.2, last⟩⟩
            exact Finset.mem_sdiff.mpr ⟨KeptGraph.mem_slots.mpr (by simp [named]), outside_cone⟩
          rw [log] at last
          obtain ⟨-, still, -⟩ :=
            record_last_round (jacobi_steady rules graph.definitionOf key) last
          exact still round ((Multiset.le_sup counted_here).trans past) before
      · rw [← outside_jacobi rules kept batch isCone away,
          ← outside_jacobi rules kept batch isCone away,
          constant (show stop - 1 ≤ round + 1 by omega), constant (show stop - 1 ≤ round by omega)]
  · rcases sup_zero_or_mem counts with zero | member
    · omega
    · obtain ⟨key, moved⟩ := (source _ member).2 (by omega)
      rw [is_last, Nat.add_sub_cancel] at moved
      exact ⟨key, moved⟩
  · rcases sup_zero_or_mem counts with zero | member
    · omega
    · exact (source _ member).1

end

private theorem settled_present (solver : RoundReplay K I V E) (valid : solver.graph.Valid)
    (settled : Settled rules solver solver.graph.definitionOf stop) {s : Slot}
    (defined : (solver.graph.nodes s).defined ≠ none) : solver.trajectories s ≠ [] := by
  intro blank
  obtain ⟨key, named⟩ := Option.ne_none_iff_exists'.mp (valid.defined_live s defined)
  have last := record_last (jacobi_steady rules solver.graph.definitionOf key) stop
  rw [← settled.trajectories s key named, blank, getLast?_nil, Option.map_none, eq_comm,
    jacobi_eq_none, definitionOf_of_key valid.index named, definitionAt_eq_none] at last
  exact defined last

private theorem solve_settled {cone : Finset Slot} {fresh : Bool} (valid : solver.graph.Valid)
    (live : ∀ s ∈ cone, solver.graph.index.key s ≠ none) (counts : solver.lastChanges =
      ∑ slot ∈ solver.graph.slots \ cone, counted solver.trajectories slot)
    (outside : OutsideOk rules solver.graph cone solver.trajectories
      (if fresh then 0 else solver.lastChanges.sup))
    (logs : ∀ slot, slot ∉ cone → ∀ key, solver.graph.index.key slot = some key → ∃ stop,
      (if fresh then 0 else solver.lastChanges.sup) ≤ stop ∧ stop ≤ solver.cap ∧
        solver.trajectories slot =
          record (fun round => jacobi rules solver.graph.definitionOf round key) stop) :
    Settled rules (solver.solve rules cone fresh) solver.graph.definitionOf
      (solver.solve rules cone fresh).rounds := by
  have start : Replaying rules solver.graph cone
      ⟨initial rules solver.graph,
        fun slot => (initial rules solver.graph slot).toList.map (0, ·), 0, false⟩ := by
    refine ⟨fun slot _ key named => initial_eq rules valid named, fun slot _ key named => ?_,
      fun round bound => absurd bound (Nat.not_succ_le_zero round)⟩
    simp only [initial_eq rules valid named, record]
  obtain ⟨stops, passed, inside_logs⟩ :=
    replayLoop_spec rules valid live outside solver.cap_positive solver.cap _ start rfl
      (Nat.zero_add _)
  simp only [solve]
  generalize replayLoop rules solver.graph cone solver.trajectories
    (if fresh then 0 else solver.lastChanges.sup) solver.cap
    ⟨initial rules solver.graph,
      fun slot => (initial rules solver.graph slot).toList.map (0, ·), 0, false⟩ = final
    at stops passed inside_logs ⊢
  refine ⟨stops, fun slot key named => ?_, ?_, .inl rfl⟩
  · by_cases inside : slot ∈ cone
    · simp only [inside, if_true]
      exact inside_logs slot inside key named
    · simp only [inside, if_false]
      obtain ⟨stop, reached, capped, log⟩ := logs slot inside key named
      have outside_key := outside_coneKeys valid inside named
      have final_reached : (if fresh then 0 else solver.lastChanges.sup) ≤ final.round := by
        cases quiet : final.converged with
        | true => exact (passed quiet).le
        | false =>
          rw [(stops.last_moved quiet).1]
          exact reached.trans capped
      rw [log]
      rcases Nat.le_total stop final.round with before | after
      · refine (record_eq_of_constant before fun q lower _ => ?_).symm
        exact outside.still key outside_key q (reached.trans lower)
      · refine record_eq_of_constant after fun q lower _ => ?_
        exact outside.still key outside_key q (final_reached.trans lower)
  · have inside : cone ⊆ solver.graph.slots :=
      fun s member => KeptGraph.mem_slots.mpr (live s member)
    simp only
    rw [count_eq, sum_sort, counts, ← Finset.sum_sdiff inside]
    congr 1
    · refine Finset.sum_congr rfl fun s member => ?_
      simp only [counted, (Finset.mem_sdiff.mp member).2, if_false]
    · refine Finset.sum_congr rfl fun s member => ?_
      simp only [counted, member, if_true]

omit [DecidableEq K] in
private theorem resolve_frame (solver : RoundReplay K I V E) (cone : Finset Slot) (fresh : Bool) :
    (solver.resolve rules cone fresh).graph = solver.graph ∧
      (solver.resolve rules cone fresh).cap = solver.cap ∧ ∀ s, s ∉ cone →
        (solver.resolve rules cone fresh).trajectories s = solver.trajectories s := by
  unfold resolve
  split
  · refine ⟨rfl, rfl, fun s away => ?_⟩
    simp only [solve, away, if_false]
  · split
    · exact ⟨rfl, rfl, fun _ _ => rfl⟩
    · exact ⟨rfl, rfl, fun _ _ => rfl⟩

section

variable (kept : Kept rules solver definitions)
  (batch : AppliedTo solver.graph graph applied changes) {seedCone : Finset Slot}
  (seedIsCone : IsCone graph applied.seeds seedCone) (fresh : Bool)
  (stale : fresh = false → solver.converged)

include kept batch seedIsCone stale

private theorem replay_outside :
    let cone := if fresh then graph.slots else seedCone
    let lastChanges :=
      if fresh then 0
      else uncount solver.trajectories solver.lastChanges (seedCone.sort (· ≤ ·))
    IsCone graph applied.seeds cone ∧
      lastChanges = ∑ slot ∈ graph.slots \ cone, counted solver.trajectories slot ∧
      OutsideOk rules graph cone solver.trajectories (if fresh then 0 else lastChanges.sup) ∧
      ∀ slot, slot ∉ cone → ∀ key, graph.index.key slot = some key → ∃ stop,
        (if fresh then 0 else lastChanges.sup) ≤ stop ∧ stop ≤ solver.cap ∧
          solver.trajectories slot =
            record (fun round => jacobi rules graph.definitionOf round key) stop := by
  have valid := batch.progress.valid
  cases fresh with
  | true =>
    have nothing : ∀ slot, slot ∉ graph.slots → ∀ key, graph.index.key slot ≠ some key :=
      fun slot away key named => away (KeptGraph.mem_slots.mpr (by simp [named]))
    simp only [if_true]
    refine ⟨KeptGraph.slots_isCone valid batch.progress.live, by simp,
      ⟨fun pred away name named => absurd named (nothing pred away name),
        fun key away round _ => ?_, nofun⟩,
      fun slot away key named => absurd named (nothing slot away key)⟩
    have undefined : graph.definitionOf key = none := by
      by_contra defined
      obtain ⟨slot, named, -⟩ := slot_of_definitionOf valid.index defined
      exact away ⟨slot, KeptGraph.mem_slots.mpr (by simp [named]), named⟩
    exact jacobi_undefined rules undefined _ _
  | false =>
    have converged := stale rfl
    obtain ⟨stop, settled⟩ := kept.settled converged
    have counts := outside_counts rules kept settled batch seedIsCone
    obtain ⟨ok, before⟩ := outside_ok rules kept settled batch seedIsCone converged
    simp only [Bool.false_eq_true, if_false, counts]
    refine ⟨seedIsCone, trivial, ok, fun slot away key named => ⟨stop, before.le,
      settled.stops.capped, outside_trajectory rules kept settled batch seedIsCone away named⟩⟩

private theorem resolve_settled :
    let cone := if fresh then graph.slots else seedCone
    let lastChanges :=
      if fresh then 0
      else uncount solver.trajectories solver.lastChanges (seedCone.sort (· ≤ ·))
    ∃ stop, Settled rules (resolve { solver with graph, lastChanges } rules cone fresh)
      graph.definitionOf stop := by
  intro cone lastChanges
  obtain ⟨isCone, counts, outside, logs⟩ :=
    replay_outside rules kept batch seedIsCone fresh stale
  by_cases nonempty : cone.Nonempty
  · rw [resolve, if_pos nonempty]
    exact ⟨_, solve_settled rules batch.progress.valid isCone.live counts outside logs⟩
  · have empty : cone = ∅ := Finset.not_nonempty_iff_eq_empty.mp nonempty
    rw [resolve, if_neg nonempty]
    cases fresh with
    | true =>
      have no_slots : graph.slots = ∅ := empty
      have nothing : ∀ slot key, graph.index.key slot ≠ some key := fun slot key named => by
        have member : slot ∈ graph.slots := KeptGraph.mem_slots.mpr (by simp [named])
        rw [no_slots] at member
        exact nomatch member
      have undefined : ∀ key, graph.definitionOf key = none := fun key => by
        by_contra defined
        obtain ⟨slot, named, -⟩ := slot_of_definitionOf batch.progress.valid.index defined
        exact nothing slot key named
      refine ⟨1, ⟨⟨le_rfl, solver.cap_positive, fun r before => absurd before (by omega),
        fun _ => ?_, nofun⟩,
        fun slot key named => absurd named (nothing slot key), ?_, .inr undefined⟩⟩
      · funext key
        exact jacobi_undefined rules (undefined key) _ _
      · simp [lastChanges, no_slots]
    | false =>
      obtain ⟨stop, settled⟩ := kept.settled (stale rfl)
      have no_cone : seedCone = ∅ := empty
      have away : ∀ slot, slot ∉ seedCone := fun slot => by simp [no_cone]
      have no_keys : ∀ key, key ∉ coneKeys graph seedCone := by
        rintro key ⟨slot, inside, -⟩
        exact away slot inside
      have same : graph.definitionOf = definitions := by
        funext key
        rw [← kept.table]
        exact (batch.outside_eq kept.valid seedIsCone (no_keys key)).symm
      refine ⟨stop, ⟨same ▸ settled.stops, fun slot key named => ?_, ?_, same ▸ settled.rounds⟩⟩
      · have log := outside_trajectory rules kept settled batch seedIsCone (away slot) named
        exact log
      · simp only [Bool.false_eq_true, if_false, no_cone, Finset.sdiff_empty] at counts
        simp only [Bool.false_eq_true, if_false, lastChanges, no_cone]
        exact counts

end

private theorem updateWith_spec [DecidableEq I] [DecidableEq E] (kept : Kept rules solver definitions)
    (changes : List (Change K I E)) (forceFresh : Bool) : ∃ after solved stop,
      Returns (fun fuel => solver.updateWith fuel changes rules forceFresh) (after, solved) ∧
      after.cap = solver.cap ∧ Kept rules after (override definitions changes) ∧
      Settled rules after (override definitions changes) stop ∧ solved.changed.Nodup ∧
      ∀ key, key ∈ solved.changed ↔ solver.value key ≠ after.value key := by
  have batch := KeptGraph.apply_spec kept.valid changes
  unfold updateWith
  generalize solver.graph.apply changes = result at batch ⊢
  obtain ⟨graph, applied⟩ := result
  simp only at batch ⊢
  have valid := batch.progress.valid
  have table : graph.definitionOf = override definitions changes := by
    rw [batch.definitions, kept.table]
  obtain ⟨seedCone, walked, seedIsCone⟩ := KeptGraph.cone_spec valid batch.progress.live
  generalize is_fresh : (forceFresh || !solver.converged ||
    freshCone seedCone.card graph.index.len) = fresh
  have stale : fresh = false → solver.converged := by
    intro reused
    rw [← is_fresh, Bool.or_eq_false_iff, Bool.or_eq_false_iff, Bool.not_eq_false'] at reused
    exact reused.1.2
  have isCone := (replay_outside rules kept batch seedIsCone fresh stale).1
  obtain ⟨stop, settled⟩ := resolve_settled rules kept batch seedIsCone fresh stale
  generalize is_cone : (if fresh then graph.slots else seedCone) = cone at isCone settled
  generalize is_counts : (if fresh then 0
    else uncount solver.trajectories solver.lastChanges (seedCone.sort (· ≤ ·))) = lastChanges
    at settled
  obtain ⟨same_graph, same_cap, held⟩ :=
    resolve_frame rules { solver with graph, lastChanges } cone fresh
  generalize is_resolved : resolve { solver with graph, lastChanges } rules cone fresh = resolved
    at settled same_graph same_cap held
  simp only at same_graph same_cap held
  have blank : ∀ s, (resolved.graph.nodes s).defined = none → resolved.trajectories s = [] := by
    intro s undefined
    rw [same_graph] at undefined
    by_cases inside : s ∈ cone
    · obtain ⟨key, named⟩ := Option.ne_none_iff_exists'.mp (isCone.live s inside)
      rw [settled.trajectories s key (by rw [same_graph, named]), record_absent]
      intro round
      rw [jacobi_eq_none, definitionOf_of_key valid.index named, definitionAt_eq_none, undefined]
    · rw [held s inside]
      refine kept.blank s ?_
      rwa [batch.progress.held s fun seeded => inside (isCone.seeded seeded)] at undefined
  have freed := KeptGraph.sweep_spec valid applied
  have settled_after : Settled rules { resolved with graph := graph.sweep applied }
      graph.definitionOf stop := by
    rw [← same_graph] at freed settled ⊢
    exact settled_swept rules freed blank settled
  have after_table : (graph.sweep applied).definitionOf = graph.definitionOf :=
    freed.definitionOf_eq valid
  refine ⟨{ resolved with graph := graph.sweep applied },
    ⟨changedKeys graph applied (lastValue solver.trajectories) (lastValue resolved.trajectories)
      cone, cone.card, fresh⟩, stop, walked.bind ⟨0, fun _ _ => ?_⟩, same_cap,
    ⟨freed.valid, after_table.trans table, fun s undefined => blank s ?_, fun s defined => ?_,
      fun _ => ⟨stop, table ▸ settled_after⟩⟩, table ▸ settled_after, ?_⟩
  · simp only [is_fresh, is_cone, is_counts, is_resolved]
  · rwa [same_graph, ← freed.nodes]
  · exact settled_present rules { resolved with graph := graph.sweep applied } freed.valid
      (by rw [after_table]; exact settled_after) defined
  · refine changedKeys_spec kept.valid batch isCone (fun _ _ => rfl) (fun s away => ?_)
      (fun s defined => ?_) freed
    · simp only [lastValue, held s away]
    · simp only [lastValue, ne_eq, Option.map_eq_none_iff, getLast?_eq_none_iff]
      exact kept.present s defined

private theorem run_spec [DecidableEq I] [DecidableEq E] (history : List (List (Change K I E)))
    (start : Kept rules solver definitions) :
    ∃ after, Returns (fun fuel => run fuel rules solver history) after ∧
      after.cap = solver.cap ∧ Kept rules after (override definitions history.flatten) := by
  induction history generalizing solver definitions with
  | nil => exact ⟨solver, .pure solver, rfl, start⟩
  | cons changes later ih =>
    obtain ⟨next, solved, stop, returned, next_cap, kept, -⟩ :=
      updateWith_spec rules start changes false
    obtain ⟨after, finished, after_cap, kept_after⟩ := ih kept
    refine ⟨after, returned.bind finished, after_cap.trans next_cap, ?_⟩
    rw [KeptGraph.override_flatten_cons]
    exact kept_after

private theorem settled_values (kept : Kept rules solver definitions)
    (settled : Settled rules solver definitions stop) (key : K) :
    solver.value key = jacobi rules definitions stop key ∧
      ∀ round, solver.valueAtRound key round = jacobi rules definitions (min round stop) key := by
  have valid := kept.valid.index
  have steady := jacobi_steady rules definitions key
  unfold value valueAtRound
  by_cases undefined : solver.graph.definitionOf key = none
  · have absent := fun round => (jacobi_eq_none rules definitions round key).mpr
      (kept.table ▸ undefined)
    refine ⟨?_, fun round => ?_⟩
    · rw [valueOf_of_undefined valid undefined, absent]
    · rw [valueOf_of_undefined valid undefined, absent]
  · obtain ⟨slot, named, defined⟩ := slot_of_definitionOf valid undefined
    have log := settled.trajectories slot key named
    refine ⟨?_, fun round => ?_⟩
    · rw [valueOf_of_defined valid named defined, lastValue, log, record_last steady]
    · rw [valueOf_of_defined valid named defined, log, valueAt_record steady]

/-- After every update of every run the solver answers as the Jacobi loop over the current
definitions does, run until a quiet round or the cap, and so as a new solver given those
definitions in one update; the update reports, each once, exactly the keys it moved. -/
theorem update_replays [DecidableEq I] [DecidableEq E] (cap : ℕ) (positive : 1 ≤ cap)
    (history : List (List (Change K I E))) (changes whole : List (Change K I E))
    (same : definitionsAfter [whole] = definitionsAfter (history ++ [changes])) :
    ∃ before after solved fresh freshSolved stop,
      Returns (fun fuel => run fuel rules (new cap positive) history) before ∧
      Returns (fun fuel => before.update fuel changes rules) (after, solved) ∧
      Returns (fun fuel => (new cap positive).update fuel whole rules) (fresh, freshSolved) ∧
      StopsAt (jacobi rules (definitionsAfter (history ++ [changes]))) cap stop after.converged ∧
      (∀ key, after.value key = jacobi rules (definitionsAfter (history ++ [changes])) stop key) ∧
      (∀ key, after.value key = fresh.value key) ∧
      (∀ key round, after.valueAtRound key round = fresh.valueAtRound key round) ∧
      after.converged = fresh.converged ∧
      ((∃ key, definitionsAfter (history ++ [changes]) key ≠ none) → after.rounds = fresh.rounds) ∧
      solved.changed.Nodup ∧
      ∀ key, key ∈ solved.changed ↔ before.value key ≠ after.value key := by
  obtain ⟨before, ran, before_cap, kept_before⟩ :=
    run_spec rules history (new_kept rules cap positive)
  obtain ⟨after, solved, stop, returned, after_cap, kept, settled, report⟩ :=
    updateWith_spec rules kept_before changes false
  obtain ⟨fresh, freshSolved, freshStop, freshReturned, fresh_cap, freshKept, freshSettled, -⟩ :=
    updateWith_spec rules (new_kept rules cap positive) whole false
  have whole_eq : definitionsAfter [whole] = override (fun _ => none) whole :=
    KeptGraph.definitionsAfter_append [] whole
  rw [← definitionsAfter, ← KeptGraph.definitionsAfter_append] at kept settled
  rw [← whole_eq, same] at freshKept freshSettled
  have cap_eq : after.cap = cap := after_cap.trans before_cap
  have fresh_cap_eq : fresh.cap = cap := fresh_cap
  have stops := settled.stops
  have freshStops := freshSettled.stops
  rw [cap_eq] at stops
  rw [fresh_cap_eq] at freshStops
  obtain ⟨stop_eq, converged_eq⟩ := stops.unique freshStops
  subst stop_eq
  have values := settled_values rules kept settled
  have freshValues := settled_values rules freshKept freshSettled
  refine ⟨before, after, solved, fresh, freshSolved, stop, ran, returned, freshReturned, stops,
    fun key => (values key).1, fun key => ?_, fun key round => ?_, converged_eq, ?_, report⟩
  · rw [(values key).1, (freshValues key).1]
  · rw [(values key).2 round, (freshValues key).2 round]
  · rintro ⟨key, defined⟩
    have rounds := settled.rounds.resolve_right fun nothing => defined (nothing key)
    have freshRounds := freshSettled.rounds.resolve_right fun nothing => defined (nothing key)
    rw [rounds, freshRounds]

def counting : Rules ℕ ℕ ℕ Unit := ⟨fun _ input => input, fun _ _ own preds => own + preds.length + 1⟩

def first : Change ℕ ℕ Unit := (0, some ⟨0, []⟩)

def second : Change ℕ ℕ Unit := (1, some ⟨1, [(0, ())]⟩)

/-- A loop that never settles, capped at two rounds, with a node that reads another. -/
theorem update_replays_capped :
    ∃ before after solved fresh freshSolved stop,
      Returns (fun fuel => run fuel counting (new 2 (by decide)) [[first]]) before ∧
      Returns (fun fuel => before.update fuel [second] counting) (after, solved) ∧
      Returns (fun fuel => (new 2 (by decide)).update fuel [first, second] counting)
        (fresh, freshSolved) ∧
      StopsAt (jacobi counting (definitionsAfter [[first], [second]])) 2 stop after.converged ∧
      (∀ key, after.value key = jacobi counting (definitionsAfter [[first], [second]]) stop key) ∧
      (∀ key, after.value key = fresh.value key) ∧
      (∀ key round, after.valueAtRound key round = fresh.valueAtRound key round) ∧
      after.converged = fresh.converged ∧
      ((∃ key, definitionsAfter [[first], [second]] key ≠ none) → after.rounds = fresh.rounds) ∧
      solved.changed.Nodup ∧
      ∀ key, key ∈ solved.changed ↔ before.value key ≠ after.value key :=
  update_replays counting 2 (by decide) [[first]] [second] [first, second] rfl

end

end SolidChecker.Fixpoint.RoundReplay
