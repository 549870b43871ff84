/- source: solid-reactive-ir/src/base/fixpoint/rounds.rs -/

import SolidChecker.Fixpoint.Report
import SolidChecker.Foundation.Rounds
import Mathlib.Algebra.BigOperators.Group.Finset.Basic
import Mathlib.Order.Lattice.Nat

namespace SolidChecker.Fixpoint

open Foundation.Loop (Returns)
open Foundation.Rounds
open KeptGraph (AppliedTo IsCone Swept coneKeys override)
open scoped BigOperators

abbrev Trajectory (V : Type*) := List (ℕ × V)

structure Rules (K I V E : Type*) where
  init : K → I → V
  step : K → I → V → List (E × Option V) → V

/-- The kept solver. `lastChanges` counts each defined node's last change round; the map
from round to count, which drops a count of zero, is a multiset. -/
structure RoundReplay (K I V E : Type*) where
  graph : KeptGraph K I E
  trajectories : Slot → Trajectory V
  lastChanges : Multiset ℕ
  cap : ℕ
  cap_positive : 1 ≤ cap
  converged : Bool
  rounds : ℕ

structure Replay (V : Type*) where
  current : Slot → Option V
  trajectories : Slot → Trajectory V
  round : ℕ
  converged : Bool

variable {K I V E : Type*} [DecidableEq K] [DecidableEq I] [DecidableEq V] [DecidableEq E]

namespace RoundReplay

def new (cap : ℕ) (positive : 1 ≤ cap) : RoundReplay K I V E :=
  ⟨KeptGraph.empty, fun _ => [], 0, cap, positive, false, 0⟩

/-- What a step sees of a predecessor after `round` rounds: its current value inside the
cone, its stored one outside. -/
def seen (cone : Finset Slot) (stored : Slot → Trajectory V) (current : Slot → Option V)
    (round : ℕ) (pred : Slot) : Option V :=
  if pred ∈ cone then current pred else valueAt (stored pred) round

variable (rules : Rules K I V E)

/-- The next round's value of a slot. A live slot has a key and a defined one a current
value, so the last arm is the two `expect`s of the source. -/
def nextValue (graph : KeptGraph K I E) (cone : Finset Slot) (stored : Slot → Trajectory V)
    (current : Slot → Option V) (round : ℕ) (slot : Slot) : Option V :=
  match (graph.nodes slot).defined with
  | none => none
  | some (input, preds) =>
    match graph.index.key slot, current slot with
    | some key, some own =>
      some (rules.step key input own
        (preds.map fun pair => (pair.2, seen cone stored current round pair.1)))
    | _, _ => none

def extend (trajectory : Trajectory V) (round : ℕ) (previous next : Option V) : Trajectory V :=
  match next with
  | some value => if next = previous then trajectory else trajectory ++ [(round, value)]
  | none => trajectory

def replayLoop (rules : Rules K I V E) (graph : KeptGraph K I E) (cone : Finset Slot)
    (stored : Slot → Trajectory V) (outsideLast : ℕ) : ℕ → Replay V → Replay V
  | 0, state => state
  | remaining + 1, state =>
    let round := state.round + 1
    let next := nextValue rules graph cone stored state.current state.round
    let moved := (cone.sort (· ≤ ·)).any fun slot =>
      decide (next slot ≠ state.current slot) && (next slot).isSome
    let trajectories := fun slot =>
      extend (state.trajectories slot) round (state.current slot) (next slot)
    if !moved && decide (outsideLast < round) then ⟨next, trajectories, round, true⟩
    else replayLoop rules graph cone stored outsideLast remaining ⟨next, trajectories, round, false⟩

def initial (graph : KeptGraph K I E) (slot : Slot) : Option V :=
  match (graph.nodes slot).defined, graph.index.key slot with
  | some (input, _), some key => some (rules.init key input)
  | _, _ => none

variable (trajectories : Slot → Trajectory V)

def uncount (counts : Multiset ℕ) (slots : List Slot) : Multiset ℕ :=
  slots.foldl (fun counts slot =>
    match (trajectories slot).getLast? with
    | none => counts
    | some (last, _) => counts.erase last) counts

def count (counts : Multiset ℕ) (slots : List Slot) : Multiset ℕ :=
  slots.foldl (fun counts slot =>
    match (trajectories slot).getLast? with
    | none => counts
    | some (last, _) => last ::ₘ counts) counts

variable (solver : RoundReplay K I V E)

def solve (cone : Finset Slot) (fresh : Bool) : RoundReplay K I V E :=
  let outsideLast := if fresh then 0 else solver.lastChanges.sup
  let start : Replay V :=
    ⟨initial rules solver.graph,
      fun slot => (initial rules solver.graph slot).toList.map (0, ·), 0, false⟩
  let final := replayLoop rules solver.graph cone solver.trajectories outsideLast solver.cap start
  { solver with
    trajectories := fun slot =>
      if slot ∈ cone then final.trajectories slot else solver.trajectories slot
    lastChanges := count final.trajectories solver.lastChanges (cone.sort (· ≤ ·))
    converged := final.converged
    rounds := final.round }

/-- Solves a cone with a slot in it. With no node at all there is nothing to extend and
nothing to cap. -/
def resolve (rules : Rules K I V E) (cone : Finset Slot) (fresh : Bool) : RoundReplay K I V E :=
  if cone.Nonempty then solver.solve rules cone fresh
  else if fresh then { solver with converged := true, rounds := 0 }
  else solver

def lastValue (slot : Slot) : Option V :=
  ((trajectories slot).getLast?).map Prod.snd

/-- Applies definition changes and re-solves: every node when forced, when the last solve
stopped at the cap or when the cone is large. -/
def updateWith (fuel : ℕ) (changes : List (Change K I E)) (rules : Rules K I V E)
    (forceFresh : Bool) : Option (RoundReplay K I V E × Solved K) :=
  let (graph, applied) := solver.graph.apply changes
  (graph.cone fuel applied.seeds).bind fun seedCone =>
    let fresh := forceFresh || !solver.converged || freshCone seedCone.card graph.index.len
    let cone := if fresh then graph.slots else seedCone
    let lastChanges :=
      if fresh then 0
      else uncount solver.trajectories solver.lastChanges (seedCone.sort (· ≤ ·))
    let solved := resolve { solver with graph, lastChanges } rules cone fresh
    some ({ solved with graph := graph.sweep applied },
      ⟨changedKeys graph applied (lastValue solver.trajectories) (lastValue solved.trajectories)
        cone, cone.card, fresh⟩)

def update (fuel : ℕ) (changes : List (Change K I E)) (rules : Rules K I V E) :
    Option (RoundReplay K I V E × Solved K) :=
  solver.updateWith fuel changes rules false

def value (key : K) : Option V :=
  valueOf solver.graph (lastValue solver.trajectories) key

def valueAtRound (key : K) (round : ℕ) : Option V :=
  valueOf solver.graph (fun slot => valueAt (solver.trajectories slot) round) key

def run (fuel : ℕ) (rules : Rules K I V E) (solver : RoundReplay K I V E) :
    List (List (Change K I E)) → Option (RoundReplay K I V E)
  | [] => some solver
  | changes :: later =>
    (solver.update fuel changes rules).bind fun (next, _) => run fuel rules next later

end RoundReplay

end SolidChecker.Fixpoint
