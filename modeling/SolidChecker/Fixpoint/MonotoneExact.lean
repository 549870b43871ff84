/- source: solid-reactive-ir/src/base/fixpoint/monotone.rs -/

import Mathlib.Data.Fintype.Order
import Mathlib.Order.CompletePartialOrder
import SolidChecker.Fixpoint.Monotone

namespace SolidChecker.Fixpoint.Monotone

open Foundation.Loop (Returns)
open Foundation.Equations
open KeptGraph (AppliedTo IsCone Swept override definitionsAfter definitionOf_of_key definitionAt_eq_none
  slot_of_definitionOf coneKeys listed lastOnly diff_spec)

variable {K V E : Type*} [DecidableEq K] [SemilatticeSup V] [OrderBot V]
  (transfer : E → V → V) (monotone : ∀ e v w, v ≤ w → transfer e v ≤ transfer e w)
  {before graph : KeptGraph K V E} {applied : Applied K} {changes : List (Change K V E)}

private theorem chooseCone_spec {I : Type*} {graph : KeptGraph K I E} (valid : graph.Valid)
    {seeds : Finset Slot} (live : ∀ s ∈ seeds, graph.index.key s ≠ none) (forceFresh : Bool) :
    ∃ cone fresh, Returns (fun fuel => chooseCone graph fuel seeds forceFresh) (cone, fresh) ∧
      IsCone graph seeds cone := by
  have all := KeptGraph.slots_isCone valid live
  unfold chooseCone
  by_cases enough : forceFresh || freshCone seeds.card graph.index.len
  · simp only [enough, if_true]
    exact ⟨graph.slots, true, .pure _, all⟩
  · simp only [enough, Bool.false_eq_true, if_false]
    obtain ⟨cone, returned, isCone⟩ := KeptGraph.cone_spec valid live
    by_cases large : freshCone cone.card graph.index.len
    · refine ⟨graph.slots, true, returned.bind ?_, all⟩
      simp only [large, if_true]
      exact .pure _
    · refine ⟨cone, false, returned.bind ?_, isCone⟩
      simp only [large, Bool.false_eq_true, if_false]
      exact .pure _

private theorem agree_outside (valid : before.Valid)
    (batch : AppliedTo before graph applied changes) {cone : Finset Slot}
    (isCone : IsCone graph applied.seeds cone) :
    AgreeOutside (equations transfer monotone before.definitionOf)
      (equations transfer monotone graph.definitionOf) (coneKeys graph cone) := by
  refine ⟨fun key away => ?_, fun key away v => ?_, ?_⟩
  · simp only [equations, batch.outside_eq valid isCone away]
  · simp only [equations, batch.outside_eq valid isCone away]
  · rintro key name inside ⟨definition, defined, listed⟩
    exact isCone.dependents batch.progress.valid defined listed inside

private theorem assignment_kept (valid : before.Valid)
    (batch : AppliedTo before graph applied changes) (values : Slot → V) :
    assignment graph (fun slot => if slot ∈ applied.allocated then ⊥ else values slot) =
      assignment before values := by
  have later := batch.progress.valid
  funext key
  cases found : graph.index.get key with
  | some slot =>
    have named := (later.index.inverse key slot).mp found
    have was := batch.key_before valid named
    rw [assignment, found, assignment, was]
    by_cases fresh : slot ∈ applied.allocated
    · simp only [fresh, if_true]
    · simp only [fresh, if_false]
  | none =>
    have absent : before.index.get key = none := by
      by_contra present
      obtain ⟨slot, held⟩ := Option.ne_none_iff_exists'.mp present
      have kept := batch.progress.grown.kept slot key ((valid.index.inverse key slot).mp held)
      rw [(later.index.inverse key slot).mpr kept] at found
      cases found
    rw [assignment, found, assignment, absent]

private theorem assignment_swept {swept : KeptGraph K V E} (valid : graph.Valid)
    (freed : Swept graph swept) {values : Slot → V}
    (solution : Solution (equations transfer monotone graph.definitionOf)
      (assignment graph values)) : assignment swept values = assignment graph values := by
  funext key
  cases found : swept.index.get key with
  | some slot =>
    have named := freed.names slot key ((freed.valid.index.inverse key slot).mp found)
    rw [assignment, found, assignment_of_key valid.index named]
  | none =>
    have undefined : graph.definitionOf key = none := by
      by_contra present
      obtain ⟨slot, named, held⟩ := slot_of_definitionOf valid.index present
      have still : swept.index.key slot = some key := by rw [freed.kept slot held, named]
      rw [(freed.valid.index.inverse key slot).mpr still] at found
      cases found
    rw [solution key, assignment, found]
    simp only [equations, undefined]

/-- The kept state is exact for a table of definitions: the graph holds them, and the
values by key are their locally least solution. -/
structure Exact (solver : Monotone K V E)
    (definitions : K → Option (Definition K V E)) : Prop where
  valid : solver.graph.Valid
  table : solver.graph.definitionOf = definitions
  solution : Solution (equations transfer monotone definitions)
    (assignment solver.graph solver.values)
  least : LocallyLeast (equations transfer monotone definitions)
    (assignment solver.graph solver.values)

private theorem empty_exact : Exact transfer monotone (empty : Monotone K V E) fun _ => none := by
  have nothing : (.empty : KeptGraph K V E).definitionOf = fun _ => none := by
    funext key
    simp [KeptGraph.definitionOf, KeptGraph.empty, DenseIndex.empty, DenseIndex.get]
  have bottom : ∀ key, assignment (.empty : KeptGraph K V E) (fun _ => ⊥) key = ⊥ :=
    fun key => by
      unfold assignment
      cases KeptGraph.empty.index.get key <;> rfl
  refine ⟨KeptGraph.empty_valid, nothing, fun key => ?_, fun A _ w _ key _ => ?_⟩
  · rw [empty, bottom]
    rfl
  · rw [empty, bottom]
    exact bot_le

variable {solver : Monotone K V E}

private theorem value_eq (valid : solver.graph.Valid) (key : K) :
    solver.value key = (solver.graph.definitionOf key).map fun _ =>
        assignment solver.graph solver.values key := by
  unfold value valueOf
  cases found : solver.graph.index.get key with
  | none => simp only [KeptGraph.definitionOf, found, Option.bind_none, Option.map_none]
  | some slot =>
    have named := (valid.index.inverse key slot).mp found
    rw [definitionOf_of_key valid.index named, assignment_of_key valid.index named,
      Option.bind_some, KeptGraph.isDefined, KeptGraph.definitionAt]
    cases (solver.graph.nodes slot).defined with
    | none => rfl
    | some definition => rfl

variable {definitions : K → Option (Definition K V E)}

private theorem Exact.value_unique {one other : Monotone K V E}
    (exact : Exact transfer monotone one definitions)
    (exact' : Exact transfer monotone other definitions) (key : K) :
    one.value key = other.value key := by
  have same := (exact.least.isLeast exact.solution).unique (exact'.least.isLeast exact'.solution)
  rw [value_eq exact.valid, value_eq exact'.valid, exact.table, exact'.table, same]

section

variable [DecidableEq V] [DecidableEq E]

private theorem updateWith_spec [WellFoundedGT V]
    (exact_before : Exact transfer monotone solver definitions)
    (changes : List (Change K V E)) (forceFresh : Bool) : ∃ after solved,
      Returns (fun fuel => solver.updateWith fuel changes transfer forceFresh) (after, solved) ∧
      Exact transfer monotone after (override definitions changes) ∧ solved.changed.Nodup ∧
      ∀ key, key ∈ solved.changed ↔ solver.value key ≠ after.value key := by
  have valid := exact_before.valid
  have batch := KeptGraph.apply_spec valid changes
  unfold updateWith
  generalize solver.graph.apply changes = result at batch ⊢
  obtain ⟨graph, applied⟩ := result
  simp only at batch ⊢
  have later := batch.progress.valid
  have table : graph.definitionOf = override definitions changes := by
    rw [batch.definitions, exact_before.table]
  obtain ⟨cone, fresh, chosen, isCone⟩ :=
    chooseCone_spec later batch.progress.live forceFresh
  have kept := assignment_kept valid batch solver.values
  have old := exact_before.table
  obtain ⟨solved, returned, held, solution, least⟩ :=
    solve_spec transfer monotone
      (fun slot => if slot ∈ applied.allocated then ⊥ else solver.values slot)
      later isCone.live (agree_outside transfer monotone valid batch isCone)
      (by rw [kept, old]; exact exact_before.least) (by rw [kept, old]; exact exact_before.solution)
  have freed := KeptGraph.sweep_spec later applied
  have same := assignment_swept transfer monotone later freed solution
  have swept_table := freed.definitionOf_eq later
  refine ⟨_, _, chosen.bind (returned.bind (.pure _)), ⟨freed.valid, ?_, ?_, ?_⟩,
    changedKeys_spec valid batch isCone (fun s old => ?_) (fun s away => ?_) (fun _ _ => ?_) freed⟩
  · exact swept_table.trans table
  · rw [same, ← table]
    exact solution
  · rw [same, ← table]
    exact least
  · simp only [old, if_false]
  · rw [held s away]
  · intro absent
    cases absent

private theorem run_spec [WellFoundedGT V] (history : List (List (Change K V E)))
    (start : Exact transfer monotone solver definitions) :
    ∃ after, Returns (fun fuel => run fuel transfer solver history) after ∧
      Exact transfer monotone after (override definitions history.flatten) := by
  induction history generalizing solver definitions with
  | nil => exact ⟨solver, .pure solver, start⟩
  | cons changes later ih =>
    obtain ⟨next, solved, returned, exact_next, -⟩ :=
      updateWith_spec transfer monotone start changes false
    obtain ⟨after, finished, exact_after⟩ := ih exact_next
    refine ⟨after, returned.bind finished, ?_⟩
    rw [KeptGraph.override_flatten_cons]
    exact exact_after

/-- The least solution of `value n = direct n ⊔ ⨆ transfer e (value p)`, an undefined
node being bottom. -/
def IsLeastSolution (definitions : K → Option (Definition K V E)) (value : K → V) : Prop :=
  IsLeast {v : K → V | ∀ n, v n =
    match definitions n with
    | none => ⊥
    | some definition => joinPreds transfer v definition.input definition.preds} value

include monotone in
/-- After every update of every run, the value of each defined key is the least solution
of the current definitions, no other key has one, and the update reports, each once,
exactly the keys whose optional value it moved. -/
theorem update_exact [WellFoundedGT V] (history : List (List (Change K V E)))
    (changes : List (Change K V E)) :
    ∃ before after solved,
      Returns (fun fuel => run fuel transfer empty history) before ∧
      Returns (fun fuel => before.update fuel changes transfer) (after, solved) ∧
      (∃ least, IsLeastSolution transfer (definitionsAfter (history ++ [changes])) least ∧
        ∀ key, after.value key =
          (definitionsAfter (history ++ [changes]) key).map fun _ => least key) ∧
      solved.changed.Nodup ∧
      ∀ key, key ∈ solved.changed ↔ before.value key ≠ after.value key := by
  obtain ⟨before, ran, exact_before⟩ :=
    run_spec transfer monotone history (empty_exact transfer monotone)
  obtain ⟨after, solved, returned, exact_after, report⟩ :=
    updateWith_spec transfer monotone exact_before changes false
  rw [← definitionsAfter, ← KeptGraph.definitionsAfter_append] at exact_after
  refine ⟨before, after, solved, ran, returned,
    ⟨_, exact_after.least.isLeast exact_after.solution, fun key => ?_⟩, report⟩
  rw [value_eq exact_after.valid, exact_after.table]

/-- Two Boolean nodes, the second on a self-loop and a duplicate edge. -/
theorem update_exact_selfLoop :
    ∃ before after solved,
      Returns (fun fuel => run fuel (fun (_ : Unit) (v : Bool) => v) empty
        [[(0, some ⟨true, []⟩)]]) before ∧
      Returns (fun fuel => before.update fuel
        [(1, some ⟨false, [(0, ()), (1, ()), (0, ())]⟩)] fun _ v => v) (after, solved) ∧
      (∃ least, IsLeastSolution (fun (_ : Unit) (v : Bool) => v) (definitionsAfter
          ([[(0, some ⟨true, []⟩)]] ++ [[(1, some ⟨false, [(0, ()), (1, ()), (0, ())]⟩)]])) least ∧
        ∀ key, after.value key = (definitionsAfter ([[(0, some ⟨true, []⟩)]] ++
          [[(1, some ⟨false, [(0, ()), (1, ()), (0, ())]⟩)]]) key).map fun _ => least key) ∧
      solved.changed.Nodup ∧
      ∀ key : ℕ, key ∈ solved.changed ↔ before.value key ≠ after.value key :=
  update_exact (fun _ v => v) (fun _ _ _ below => below) _ _

include monotone in
/-- Values depend on the definitions alone: batches that end in the same ones give the same values,
whichever they are, and whether or not the last solves every node. -/
theorem values_of_definitions [WellFoundedGT V] (history other : List (List (Change K V E)))
    (changes : List (Change K V E)) (forceFresh : Bool)
    (same : definitionsAfter history = definitionsAfter (other ++ [changes])) :
    ∃ one before two solved, Returns (fun fuel => run fuel transfer empty history) one ∧
      Returns (fun fuel => run fuel transfer empty other) before ∧
      Returns (fun fuel => before.updateWith fuel changes transfer forceFresh) (two, solved) ∧
      ∀ key, one.value key = two.value key := by
  have start := empty_exact transfer monotone (K := K)
  obtain ⟨one, ran, exact_one⟩ := run_spec transfer monotone history start
  obtain ⟨before, prepared, exact_before⟩ := run_spec transfer monotone other start
  obtain ⟨two, solved, returned, exact_two, -⟩ :=
    updateWith_spec transfer monotone exact_before changes forceFresh
  rw [← definitionsAfter, ← KeptGraph.definitionsAfter_append, ← same] at exact_two
  exact ⟨one, before, two, solved, ran, prepared, returned,
    exact_one.value_unique transfer monotone exact_two⟩

theorem values_of_definitions_cycle : ∃ one before two solved,
    Returns (fun fuel => run fuel (fun (_ : Unit) (v : Bool) => v) empty
      [[(0, some ⟨true, [(1, ())]⟩)], [(1, some ⟨false, [(0, ())]⟩)]]) one ∧
    Returns (fun fuel => run fuel (fun (_ : Unit) (v : Bool) => v) empty
      [[(1, some ⟨false, [(0, ())]⟩)]]) before ∧
    Returns (fun fuel => before.updateWith fuel [(0, some ⟨true, [(1, ())]⟩)] (fun _ v => v) true)
      (two, solved) ∧ ∀ key : ℕ, one.value key = two.value key :=
  values_of_definitions (fun _ v => v) (fun _ _ _ below => below) _ _ _ _
    (Function.update_comm (by decide) ..)

section

variable [WellFoundedGT V] (definitions : List (K × Definition K V E))

private theorem replace_spec {held : K → Option (Definition K V E)}
    (exact : Exact transfer monotone solver held)
    (steady : ∀ key kept, held key = some kept → listed definitions key = some kept →
      ∀ other, (key, other) ∈ definitions → other = kept) : ∃ after solved,
      Returns (fun fuel => solver.replace fuel definitions transfer) (after, solved) ∧
      Exact transfer monotone after (listed definitions) := by
  obtain rfl := exact.table
  obtain ⟨after, solved, returned, exact_after, -⟩ := updateWith_spec transfer monotone exact
    (solver.graph.diff definitions) false
  rw [diff_spec exact.valid steady] at exact_after
  exact ⟨after, solved, returned, exact_after⟩

include monotone in
/-- A kept solver given a whole list has the values of a new solver given the last definition of
each key, and no others, unless the last definition of a key is the kept one and another is not. -/
theorem replace_takes_last (history : List (List (Change K V E)))
    (steady : ∀ key kept, definitionsAfter history key = some kept →
      listed definitions key = some kept → ∀ other, (key, other) ∈ definitions → other = kept) :
    ∃ before after solved fresh freshSolved,
      Returns (fun fuel => run fuel transfer empty history) before ∧
      Returns (fun fuel => before.replace fuel definitions transfer) (after, solved) ∧
      Returns (fun fuel => empty.replace fuel (lastOnly definitions) transfer)
        (fresh, freshSolved) ∧
      (∀ key, after.value key = fresh.value key) ∧
      ∀ key, key ∉ definitions.map Prod.fst → after.value key = none := by
  have start := empty_exact transfer monotone (K := K)
  obtain ⟨before, ran, exact_before⟩ := run_spec transfer monotone history start
  obtain ⟨after, solved, returned, exact_after⟩ := replace_spec transfer monotone definitions
    exact_before steady
  obtain ⟨fresh, freshSolved, freshReturned, exact_fresh⟩ := replace_spec transfer monotone
    (lastOnly definitions) start nofun
  rw [KeptGraph.listed_lastOnly] at exact_fresh
  refine ⟨before, after, solved, fresh, freshSolved, ran, returned, freshReturned,
    exact_after.value_unique transfer monotone exact_fresh, fun key absent => ?_⟩
  rw [value_eq exact_after.valid, exact_after.table, listed, KeptGraph.entriesOf_eq_nil.mpr absent]
  rfl

/-- A definition that is not the kept one in the end. -/
theorem replace_takes_last_moved : ∃ before after solved fresh freshSolved,
    Returns (fun fuel => run fuel (fun (_ : Unit) (v : Bool) => v) empty
      [[(0, some ⟨true, []⟩)]]) before ∧
    Returns (fun fuel => before.replace fuel [(0, ⟨true, []⟩), (0, ⟨false, []⟩)] fun _ v => v)
      (after, solved) ∧
    Returns (fun fuel => empty.replace fuel (lastOnly [(0, ⟨true, []⟩), (0, ⟨false, []⟩)])
      fun (_ : Unit) v => v) (fresh, freshSolved) ∧
    (∀ key : ℕ, after.value key = fresh.value key) ∧
    ∀ key : ℕ, key ∉ [0, 0] → after.value key = none := by
  refine replace_takes_last (fun _ v => v) (fun _ _ _ below => below) _ _ ?_
  intro key kept held last
  by_cases here : key = 0
  · subst here
    exact absurd (held.trans last.symm) (by decide)
  · simp [definitionsAfter, KeptGraph.override, here] at held

end

def thereAndBack : List (ℕ × Definition ℕ Bool Unit) := [(0, ⟨false, []⟩), (0, ⟨true, []⟩)]

/-- The last definition is the kept one, so the one before it is applied. -/
theorem replace_drops_last :
    ((run 9 (fun _ value => value) empty [[(0, some ⟨true, []⟩)]]).bind fun before =>
      (before.replace 9 thereAndBack fun _ value => value).map fun done => done.1.value 0) =
        some (some false) ∧
      ((empty.replace 9 (lastOnly thereAndBack) fun _ value => value).map fun done =>
        done.1.value 0) = some (some true) := by
  decide +kernel

end

end SolidChecker.Fixpoint.Monotone
