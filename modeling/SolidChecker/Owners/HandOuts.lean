/- source: solid-reactive-ir/src/owners/owner_graph.rs -/

import SolidChecker.Foundation.Closure
import SolidChecker.Owners.OwnerGraph

namespace SolidChecker.Owners

open Foundation.Loop (Returns)
open Foundation.Closure (Walk closeUnder closeUnder_seeds Reaches)
open Foundation.Worklist

variable {n : ℕ} (graph : OwnerGraph n)

def OwnerGraph.targets (source : Fin n) : List (Fin n) :=
  (graph.outgoing source).map Prod.fst

def reachedFrom (reached : List (Fin n)) : Option (Finset (Fin n)) :=
  closeUnder graph.targets (n + 1) (reached.foldl Walk.push ⟨[], ∅⟩)

def OwnerGraph.handedOut (candidates uncertain : Fin n → Bool) : OwnerGraph n where
  contexts node :=
    if candidates node then graph.contexts node ∪ {.unowned} else graph.contexts node
  outgoing := graph.outgoing
  uncertain := uncertain

def seedUnnamedHandOuts (candidates : Fin n → Bool) : Option (OwnerGraph n) := do
  let certain ← reachedFrom graph ((List.finRange n).filter fun node => graph.contexts node ≠ ∅)
  let through ← reachedFrom graph ((List.finRange n).filter candidates)
  return graph.handedOut candidates fun node => decide (node ∈ through ∧ node ∉ certain)

def solveUnnamed (candidates : Fin n → Bool) (fuel : ℕ) : Option (Fin n → Context) := do
  solve (← seedUnnamedHandOuts graph candidates) fuel

private theorem reachedFrom_spec (reached : Fin n → Bool) :
    ∃ seen, reachedFrom graph ((List.finRange n).filter reached) = some seen ∧
      ∀ node, node ∈ seen ↔ ∃ source, reached source ∧ Reaches graph.targets source node := by
  obtain ⟨seen, returned, exact_seen⟩ := closeUnder_seeds graph.targets Finset.univ
    (fun _ _ _ _ => Finset.mem_univ _) ((List.finRange n).filter reached)
    (fun _ _ => Finset.mem_univ _) ∅ (Finset.subset_univ _)
    (fun node none => absurd none (Finset.notMem_empty node)) (by simp : _ < n + 1)
  exact ⟨seen, returned, fun node => by simp [exact_seen]⟩

variable (candidates : Fin n → Bool)

def Through (node : Fin n) : Prop :=
  ∃ candidate, candidates candidate ∧ Reaches graph.targets candidate node

def Certain (node : Fin n) : Prop :=
  ∃ seeded, graph.contexts seeded ≠ ∅ ∧ Reaches graph.targets seeded node

private theorem seedUnnamedHandOuts_spec :
    ∃ uncertain, seedUnnamedHandOuts graph candidates = some (graph.handedOut candidates uncertain) ∧
      ∀ node, uncertain node ↔ Through graph candidates node ∧ ¬ Certain graph node := by
  obtain ⟨certain, first, mem_certain⟩ :=
    reachedFrom_spec graph fun node => graph.contexts node ≠ ∅
  obtain ⟨through, second, mem_through⟩ := reachedFrom_spec graph candidates
  refine ⟨fun node => node ∈ through ∧ node ∉ certain, ?_, fun node => ?_⟩
  · rw [seedUnnamedHandOuts, first, Option.bind_eq_bind, Option.bind_some, second]
    rfl
  · simp [mem_certain, mem_through, Through, Certain]

private theorem through_step {node : Fin n} (through : Through graph candidates node)
    (edge : Fin n × OwnerEdgeKind) (member : edge ∈ graph.outgoing node) :
    Through graph candidates edge.1 := by
  obtain ⟨candidate, marked, path⟩ := through
  exact ⟨candidate, marked, path.tail (List.mem_map_of_mem member)⟩

section

variable (inside : Fin n → Prop) [DecidablePred inside]

/-- What the functions outside a part bring about, in the two rounds. -/
structure OutsideRun (first last : Fin n → Context) : Prop where
  one : Returns (propagate (graph.flow.outside inside) (List.finRange n) graph.contexts) first
  two : Returns (propagate (graph.flow.outside inside) (List.finRange n) fun node =>
    if inside node then first node else eagerContexts graph first node) last

private theorem exists_outsideRun : ∃ first last, OutsideRun graph inside first last := by
  obtain ⟨first, one, -⟩ := propagate_returns (graph.flow.outside inside)
    (fun _ _ _ (_ : True) _ _ => trivial) List.mem_finRange trivial
  obtain ⟨last, two, -⟩ := propagate_returns (graph.flow.outside inside)
    (fun _ _ _ (_ : True) _ _ => trivial) List.mem_finRange trivial
  exact ⟨first, last, one, two⟩

variable {graph inside} {other : OwnerGraph n} {first last result : Fin n → Context}

private theorem le_propagate {flow : Flow (Fin n) OwnerEdgeKind Bit} {start : Fin n → Context}
    (returned : Returns (propagate flow (List.finRange n) start) result) (node : Fin n) :
    start node ⊆ result node := by
  obtain ⟨work, ends, rfl⟩ := ends_of_returns returned
  exact le_ends ends node

private theorem le_eager (contexts : Fin n → Context) (node : Fin n) :
    contexts node ⊆ eagerContexts graph contexts node :=
  fun _ held => (mem_eagerContexts ..).mpr (.inl held)

variable (graph) in
private theorem solve_above (returned : Returns (solve graph) result) (node : Fin n) :
    graph.contexts node ⊆ result node := by
  obtain ⟨between, one, two⟩ := solve_spec graph returned
  exact ((le_propagate one node).trans (le_eager between node)).trans (le_propagate two node)

private theorem solve_part (property : (Fin n → Context) → Prop) (run : OutsideRun graph inside first last)
    (outgoing : other.outgoing = graph.outgoing)
    (apart : ∀ node, inside node → ∀ edge ∈ graph.outgoing node, inside edge.1)
    (contexts : ∀ node, ¬ inside node → graph.contexts node = other.contexts node)
    (above : ∀ node, graph.contexts node ⊆ other.contexts node)
    (uncertain : ∀ node, ¬ inside node → graph.uncertain node = other.uncertain node)
    (returned : Returns (solve other) result) (initial : property other.contexts)
    (eager : ∀ contexts, property contexts → property (eagerContexts other contexts))
    (within : ∀ values target sent, property values → sent ⊆ last target →
      property (raise values target sent))
    (pushed : ∀ values source edge, inside source → property values → values source ≠ ∅ →
      (∀ node, values node ⊆ result node) → edge ∈ other.outgoing source →
      property (raise values edge.1 (propagated (other.uncertain source) edge.2 (values source)))) :
    property result ∧ (∀ node, ¬ inside node → last node = result node) ∧
      ∀ node, last node ⊆ result node := by
  obtain ⟨between, one, two⟩ := solve_spec other returned
  have agree : ∀ node, ¬ inside node → other.flow.send node = graph.flow.send node :=
    fun node outside => by simp only [OwnerGraph.flow, uncertain node outside]
  have edges : other.flow.edges = graph.flow.edges := outgoing
  have apart' : ∀ node, inside node → ∀ edge ∈ other.flow.edges node, inside edge.1 :=
    edges ▸ apart
  have later : ∀ node, between node ⊆ result node := fun node =>
    (le_eager between node).trans (le_propagate two node)
  have early : ∀ node, first node ⊆ last node := fun node => by
    refine subset_trans ?_ (le_propagate run.two node)
    split
    · rfl
    · exact le_eager first node
  obtain ⟨firstWork, ghost, rfl⟩ := ends_of_returns run.one
  obtain ⟨lastWork, ghost', rfl⟩ := ends_of_returns run.two
  obtain ⟨betweenWork, ended, rfl⟩ := ends_of_returns one
  obtain ⟨resultWork, ended', rfl⟩ := ends_of_returns two
  obtain ⟨holds, same, below⟩ := propagate_part apart' edges agree
    (fun values target sent held less => within values target sent held (less.trans (early target)))
    (fun values source edge here held nonempty bound member => pushed values source edge here held
      nonempty (fun node => (bound node).trans (later node)) member)
    List.mem_finRange contexts above initial ghost ended
  have eagerly : ∀ node, ¬ inside node → eagerContexts graph firstWork.values node =
      eagerContexts other betweenWork.values node := by
    intro node outside
    ext bit
    rw [mem_eagerContexts, mem_eagerContexts, same node outside, outgoing]
    -- what is called from the part is in it
    have calls : ∀ source, (node, .eagerCall) ∈ graph.outgoing source → ¬ inside source :=
      fun source member here => outside (apart source here _ member)
    refine or_congr_right (and_congr_right fun _ => exists_congr fun source =>
      and_congr_left fun member => ?_)
    rw [same source (calls source member)]
  refine propagate_part apart' edges agree within pushed List.mem_finRange (fun node outside => ?_)
    (fun node => ?_) (eager _ holds) ghost' ended'
  · exact (if_neg outside).trans (eagerly node outside)
  · split
    · exact (below node).trans (le_eager ..)
    · rename_i outside
      rw [eagerly node outside]

end

def OwnerEdgeKind.Detached (kind : OwnerEdgeKind) : Prop :=
  kind = .unowned ∨ kind = .refApplied ∨ kind = .resumesUnowned

private theorem propagated_proven {uncertain : Bool} {kind : OwnerEdgeKind} {held context : Context}
    (proven : .provenUnowned ∈ propagated uncertain kind held)
    (carried : .provenUnowned ∈ held → .provenUnowned ∈ context)
    (detached : uncertain = false → kind.Detached → context ≠ ∅)
    (queued : uncertain = false → kind = .queuedLeaf → .leaf ∈ held → .leaf ∈ context)
    (guarded : uncertain = false → kind = .provenNoOwnerGuarded → .provenUnowned ∈ context →
      .unowned ∈ context ∧ .leaf ∉ context) :
    context ≠ ∅ ∧ .provenUnowned ∈ propagated false kind context := by
  have nonempty : ∀ bit ∈ context, context ≠ ∅ := fun bit member => Finset.ne_empty_of_mem member
  unfold propagated at proven ⊢
  cases kind <;> cases uncertain <;> simp_all [ownerEdgeContext, OwnerEdgeKind.Detached, unownedPart,
    leafBodyContext, trackedLeafBodyContext] <;> grind

/-- Where a certain function runs, or has a leaf, with the escape, it does so without it, or what that
proves is proven without it. -/
structure Grounded (contexts without : Fin n → Context) : Prop where
  runs : ∀ node, Through graph candidates node → Certain graph node → contexts node ≠ ∅ →
    ∀ edge ∈ graph.outgoing node, edge.2.Detached →
      without node ≠ ∅ ∨ .provenUnowned ∈ without edge.1
  leaves : ∀ node, Through graph candidates node → Certain graph node → .leaf ∈ contexts node →
    ∀ edge ∈ graph.outgoing node, edge.2 = .queuedLeaf →
      .leaf ∈ without node ∨ .provenUnowned ∈ without edge.1

def Passes (without : Fin n → Context) : Prop :=
  ∀ node, Through graph candidates node → Certain graph node → ∀ edge ∈ graph.outgoing node,
    edge.2 = .provenNoOwnerGuarded → .provenUnowned ∈ without node →
      .unowned ∈ without node ∧ .leaf ∉ without node ∨ .provenUnowned ∈ without edge.1

section

variable {graph candidates} {uncertain sure : Fin n → Bool} {contexts without : Fin n → Context}
  (marked : ∀ node, uncertain node ↔ Through graph candidates node ∧ ¬ Certain graph node)
  (certain : ∀ node, sure node = false)
  (solved : Returns (solve (graph.handedOut candidates uncertain)) contexts)
  (solved' : Returns (solve (graph.handedOut (fun _ => false) sure)) without)

include marked solved

private theorem grounded_of_proven
    (all : ∀ node, .provenUnowned ∈ contexts node → .provenUnowned ∈ without node) :
    Grounded graph candidates contexts without := by
  have sent : ∀ node, Certain graph node → contexts node ≠ ∅ → ∀ edge ∈ graph.outgoing node,
      .provenUnowned ∈ propagated false edge.2 (contexts node) → .provenUnowned ∈ without edge.1 := by
    intro node reached held edge member proven
    have unmarked : uncertain node = false :=
      Bool.eq_false_iff.mpr fun held => ((marked node).mp held).2 reached
    rw [← unmarked] at proven
    exact all edge.1 (solve_closed _ solved node held edge member proven)
  refine ⟨fun node _ reached held edge member kind => .inr (sent node reached held edge member ?_),
    fun node _ reached leaf edge member kind => .inr (sent node reached
      (Finset.ne_empty_of_mem leaf) edge member ?_)⟩
  · rcases kind with kind | kind | kind <;> simp [kind, propagated, ownerEdgeContext, held]
  · simp [kind, propagated, ownerEdgeContext, leaf]

include certain solved'

private theorem proven_of_grounded (passes : Passes graph candidates without)
    (grounded : Grounded graph candidates contexts without) (node : Fin n)
    (proven : .provenUnowned ∈ contexts node) : .provenUnowned ∈ without node := by
  classical
  obtain ⟨first, last, run⟩ := exists_outsideRun (graph.handedOut (fun _ => false) sure)
    (Through graph candidates)
  have apart : ∀ node, Through graph candidates node → ∀ edge ∈ graph.outgoing node,
      Through graph candidates edge.1 := fun _ => through_step graph candidates
  obtain ⟨-, -, below⟩ := solve_part (fun _ => True) run rfl apart (fun _ _ => rfl)
    (fun _ => subset_rfl) (fun _ _ => rfl) solved' trivial (fun _ _ => trivial)
    (fun _ _ _ _ _ => trivial) fun _ _ _ _ _ _ _ _ => trivial
  have outgoing : (graph.handedOut candidates uncertain).outgoing =
      (graph.handedOut (fun _ => false) sure).outgoing := rfl
  have seeds : ∀ node, (graph.handedOut candidates uncertain).contexts node =
      graph.contexts node ∪ if candidates node then {.unowned} else ∅ := fun node => by
    cases chosen : candidates node <;> simp [OwnerGraph.handedOut, chosen]
  refine (solve_part (fun values => ∀ node, .provenUnowned ∈ values node →
    .provenUnowned ∈ without node) run outgoing apart (fun node outside => ?_) (fun node => ?_)
    (fun node outside => ?_) solved (fun node proven => ?_) (fun values holds node proven => ?_)
    (fun values target sent holds less node proven => ?_)
    (fun values source edge here holds held bound member node proven => ?_)).1 node proven
  · -- a candidate reaches itself
    have other : candidates node = false := Bool.eq_false_iff.mpr fun candidate =>
      outside ⟨node, candidate, .refl⟩
    rw [seeds, other]
    exact (Finset.union_empty _).symm
  · rw [seeds]
    exact Finset.subset_union_left
  · have unmarked : uncertain node = false :=
      Bool.eq_false_iff.mpr fun held => outside ((marked node).mp held).1
    exact (certain node).trans unmarked.symm
  · refine solve_above _ solved' node ?_
    rw [seeds, Finset.mem_union] at proven
    exact proven.resolve_right (by split <;> simp)
  · simp only [mem_eagerContexts, reduceCtorEq, false_and, or_false] at proven
    exact holds node proven
  · rcases (mem_raise ..).mp proven with before | ⟨rfl, new⟩
    · exact holds node before
    · exact below node (less new)
  · rcases (mem_raise ..).mp proven with before | ⟨rfl, new⟩
    · exact holds node before
    · by_contra unproven
      have reached : uncertain source = false → Certain graph source := fun unmarked => by
        by_contra other
        exact Bool.eq_false_iff.mp unmarked ((marked source).mpr ⟨here, other⟩)
      have runs : contexts source ≠ ∅ := fun none =>
        held (Finset.subset_empty.mp (none ▸ bound source))
      obtain ⟨nonempty, carried⟩ := propagated_proven new (holds source)
        (fun unmarked kind => (grounded.runs source here (reached unmarked) runs edge member
          kind).resolve_right unproven)
        (fun unmarked kind leaf => (grounded.leaves source here (reached unmarked)
          (bound source leaf) edge member kind).resolve_right unproven)
        (fun unmarked kind before => (passes source here (reached unmarked) edge member kind
          before).resolve_right unproven)
      rw [← certain source] at carried
      exact unproven (solve_closed _ solved' source nonempty edge member carried)

end

def sharedCall : OwnerGraph 3 where
  contexts node := if node = 1 then {.unowned, .provenUnowned} else ∅
  outgoing node := if node = 0 then [(1, .preserve)] else if node = 1 then [(2, .unowned)] else []
  uncertain _ := false

def guardedCall : OwnerGraph 3 where
  contexts node := if node = 0 then {.owned} else ∅
  outgoing node :=
    if node = 0 then [(1, .noOwnerGuarded)] else if node = 1 then [(2, .unowned)] else []
  uncertain _ := false

end SolidChecker.Owners
