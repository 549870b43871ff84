/- source: solid-reactive-ir/src/owners/owner_graph.rs, owner_context.rs -/

import Mathlib.Logic.Equiv.Defs
import SolidChecker.Foundation.Worklist

namespace SolidChecker.Owners

open Foundation.Loop (Returns)
open Foundation.Worklist

inductive Bit
  | owned | unowned | leaf | componentUncertain | provenUnowned | laterRunUnowned | leafOwned
  | mayResumeUnowned
  deriving DecidableEq

instance : Fintype Bit :=
  ⟨{.owned, .unowned, .leaf, .componentUncertain, .provenUnowned, .laterRunUnowned, .leafOwned,
    .mayResumeUnowned}, fun bit => by cases bit <;> decide⟩

abbrev Context := Finset Bit

inductive OwnerEdgeKind
  | preserve | eagerCall | mayResumeUnowned | owned | unowned | resumesUnowned | conditional
  | inheritsFirstRun | leaf | queuedLeaf | queuedLeafDrained | refApplied | drainedByFlush
  | mayBeUnowned | mayRun | ownerGuarded | noOwnerGuarded | provenNoOwnerGuarded
  deriving DecidableEq

def unownedPart : Context :=
  {.unowned, .provenUnowned, .laterRunUnowned, .mayResumeUnowned, .componentUncertain}

def leafBodyContext (source : Context) : Context :=
  let unowned := source ∩ {.unowned, .provenUnowned}
  if .owned ∈ source then {.leaf, .leafOwned} ∪ unowned else {.leaf} ∪ unowned

def trackedLeafBodyContext (source : Context) : Context :=
  if .owned ∈ source ∨ .unowned ∈ source ∨ .leafOwned ∉ source then {.leaf, .leafOwned} else ∅

def ownerEdgeContext (kind : OwnerEdgeKind) (source : Context) : Context :=
  match kind with
  | .preserve | .eagerCall => source
  | .mayResumeUnowned =>
    if source = ∅ ∨ .provenUnowned ∈ source then source
    else source ∪ {.unowned, .mayResumeUnowned}
  | .owned => {.owned}
  | .unowned | .refApplied => {.unowned, .provenUnowned}
  | .resumesUnowned => if source = ∅ then ∅ else {.unowned, .provenUnowned}
  | .conditional => {.owned, .unowned}
  | .inheritsFirstRun => source ∪ {.unowned, .laterRunUnowned}
  | .leaf => trackedLeafBodyContext source
  | .queuedLeaf =>
    if .leaf ∈ source then
      {.leaf, .unowned, .provenUnowned} ∪ if .owned ∈ source then {.leafOwned} else ∅
    else leafBodyContext source
  | .queuedLeafDrained =>
    (if .leaf ∈ source then {.leaf, .unowned} else leafBodyContext source) \ {.provenUnowned}
  | .drainedByFlush => {.owned, .unowned, .laterRunUnowned}
  | .mayBeUnowned => {.unowned}
  | .mayRun => source \ {.provenUnowned}
  | .ownerGuarded => source \ unownedPart
  | .noOwnerGuarded =>
    if .unowned ∉ source then ∅ else (source ∩ unownedPart) \ {.provenUnowned}
  | .provenNoOwnerGuarded =>
    if .unowned ∉ source then ∅
    else if .leaf ∉ source then source ∩ unownedPart
    else (source ∩ unownedPart) \ {.provenUnowned}

def propagated (uncertain : Bool) (kind : OwnerEdgeKind) (source : Context) : Context :=
  if uncertain ∧ kind ∈ [.unowned, .refApplied] then {.unowned}
  else if uncertain ∧ kind ∈ [.queuedLeaf, .provenNoOwnerGuarded, .resumesUnowned] then
    ownerEdgeContext kind source \ {.provenUnowned}
  else ownerEdgeContext kind source

/-- The numbered nodes: the contexts they start with, their calls, and who is reached by unnamed
escapes only. -/
structure OwnerGraph (n : ℕ) where
  contexts : Fin n → Context
  outgoing : Fin n → List (Fin n × OwnerEdgeKind)
  uncertain : Fin n → Bool

variable {n : ℕ} (graph : OwnerGraph n)

def OwnerGraph.flow : Flow (Fin n) OwnerEdgeKind Bit :=
  ⟨graph.outgoing, fun source kind => propagated (graph.uncertain source) kind⟩

variable (contexts : Fin n → Context)

def propagateOwnerContexts (fuel : ℕ) : Option (Fin n → Context) :=
  propagate graph.flow (List.finRange n) contexts fuel

def eagerTargets : List (Fin n) :=
  ((List.finRange n).filter fun source => contexts source = ∅).flatMap fun source =>
    ((graph.outgoing source).filter fun edge => edge.2 = .eagerCall).map Prod.fst

def eagerContexts : Fin n → Context :=
  (eagerTargets graph contexts).foldl (fun contexts target =>
    raise contexts target (ownerEdgeContext .mayBeUnowned ∅)) contexts

def settleEagerOwners (fuel : ℕ) : Option (Fin n → Context) :=
  if eagerTargets graph contexts = [] then some contexts
  else propagateOwnerContexts graph (eagerContexts graph contexts) fuel

def solve (fuel : ℕ) : Option (Fin n → Context) := do
  settleEagerOwners graph (← propagateOwnerContexts graph graph.contexts fuel) fuel

section

def OwnerGraph.Closed (contexts : Fin n → Context) : Prop :=
  ∀ node, contexts node ≠ ∅ → ∀ edge ∈ graph.outgoing node,
    propagated (graph.uncertain node) edge.2 (contexts node) ⊆ contexts edge.1

theorem mem_eagerContexts (contexts : Fin n → Context) (node : Fin n) (bit : Bit) :
    bit ∈ eagerContexts graph contexts node ↔ bit ∈ contexts node ∨
      bit = .unowned ∧ ∃ source, contexts source = ∅ ∧ (node, .eagerCall) ∈ graph.outgoing source := by
  have fold : ∀ (targets : List (Fin n)) (contexts : Fin n → Context),
      bit ∈ targets.foldl (fun contexts target =>
        raise contexts target (ownerEdgeContext .mayBeUnowned ∅)) contexts node ↔
      bit ∈ contexts node ∨ bit = .unowned ∧ node ∈ targets := by
    intro targets
    induction targets with
    | nil => simp
    | cons target targets ih =>
      intro contexts
      rw [List.foldl_cons, ih, mem_raise, List.mem_cons, ownerEdgeContext, Finset.mem_singleton]
      tauto
  have targets : node ∈ eagerTargets graph contexts ↔
      ∃ source, contexts source = ∅ ∧ (node, .eagerCall) ∈ graph.outgoing source := by
    simp [eagerTargets]
  rw [eagerContexts, fold, targets]

private theorem propagate_closed (contexts : Fin n → Context) :
    ∃ result, Returns (propagateOwnerContexts graph contexts) result ∧ graph.Closed result := by
  obtain ⟨result, returned, -, closed⟩ := propagate_returns graph.flow
    (fun _ _ _ (_ : True) _ _ => trivial) List.mem_finRange trivial
  exact ⟨result, returned, closed⟩

private theorem solve_rounds {between result : Fin n → Context}
    (first : Returns (propagateOwnerContexts graph graph.contexts) between)
    (second : Returns (propagateOwnerContexts graph (eagerContexts graph between)) result) :
    Returns (solve graph) result := by
  refine first.bind ?_
  unfold settleEagerOwners
  split
  · rename_i none
    obtain ⟨between', first', closed⟩ := propagate_closed graph graph.contexts
    obtain rfl := first.unique first'
    have settled : Returns (propagateOwnerContexts graph between) between :=
      propagate_settled List.mem_finRange closed
    rw [eagerContexts, none, List.foldl_nil] at second
    rw [second.unique settled]
    exact .pure _
  · exact second

theorem solve_returns : ∃ result, Returns (solve graph) result := by
  obtain ⟨between, first, -⟩ := propagate_closed graph graph.contexts
  obtain ⟨result, second, -⟩ := propagate_closed graph (eagerContexts graph between)
  exact ⟨result, solve_rounds graph first second⟩

theorem solve_spec {result : Fin n → Context} (returned : Returns (solve graph) result) :
    ∃ between, Returns (propagateOwnerContexts graph graph.contexts) between ∧
      Returns (propagateOwnerContexts graph (eagerContexts graph between)) result := by
  obtain ⟨between, first, -⟩ := propagate_closed graph graph.contexts
  obtain ⟨last, second, -⟩ := propagate_closed graph (eagerContexts graph between)
  obtain rfl := returned.unique (solve_rounds graph first second)
  exact ⟨between, first, second⟩

theorem solve_closed {result : Fin n → Context} (returned : Returns (solve graph) result) :
    graph.Closed result := by
  obtain ⟨between, -, second⟩ := solve_spec graph returned
  obtain ⟨last, again, closed⟩ := propagate_closed graph (eagerContexts graph between)
  obtain rfl := second.unique again
  exact closed

end

section

def Sound (context : Context) : Prop :=
  .provenUnowned ∈ context ∨ .mayResumeUnowned ∈ context → .unowned ∈ context

def Upto (a b : Context) : Prop :=
  ∀ bit ∈ a, bit = .mayResumeUnowned ∨ bit ∈ b

private theorem Upto.eq_empty {a b : Context} (upto : Upto a b) (sound : Sound a) (empty : b = ∅) :
    a = ∅ := by
  subst empty
  refine Finset.eq_empty_of_forall_notMem fun bit member => ?_
  rcases upto bit member with rfl | held
  · rcases upto .unowned (sound (.inr member)) with same | held
    · cases same
    · exact Finset.notMem_empty _ held
  · exact Finset.notMem_empty _ held

def OwnerEdgeKind.Monotone (kind : OwnerEdgeKind) : Prop :=
  kind ≠ .leaf ∧ kind ≠ .queuedLeafDrained ∧ kind ≠ .provenNoOwnerGuarded

private theorem propagated_mono {uncertain : Bool} {kind : OwnerEdgeKind} {a b : Context}
    (monotone : kind.Monotone) (sound : Sound a) (sound' : Sound b) (upto : Upto a b) :
    Upto (propagated uncertain kind a) (propagated uncertain kind b) := by
  obtain ⟨leaf, drained, guarded⟩ := monotone
  have empty := upto.eq_empty sound
  intro bit member
  have known := upto bit
  have owned := upto .owned
  have unowned := upto .unowned
  have leaf := upto .leaf
  unfold propagated at member ⊢
  cases kind <;> cases uncertain <;> simp_all [ownerEdgeContext, unownedPart, leafBodyContext] <;>
    grind [Sound]

private theorem propagated_sound (uncertain : Bool) (kind : OwnerEdgeKind) {context : Context}
    (sound : Sound context) : Sound (propagated uncertain kind context) := by
  unfold Sound at sound ⊢
  unfold propagated
  cases kind <;> cases uncertain <;> simp_all [ownerEdgeContext, unownedPart, leafBodyContext,
    trackedLeafBodyContext] <;> grind

inductive OwnerGraph.Reaches : (Fin n → Context) → Prop
  | start : OwnerGraph.Reaches graph.contexts
  | push {contexts : Fin n → Context} {source : Fin n} {edge : Fin n × OwnerEdgeKind} :
    OwnerGraph.Reaches contexts → contexts source ≠ ∅ → edge ∈ graph.outgoing source →
    OwnerGraph.Reaches (raise contexts edge.1
      (propagated (graph.uncertain source) edge.2 (contexts source)))
  | eager {contexts : Fin n → Context} : OwnerGraph.Reaches contexts → graph.Closed contexts →
    OwnerGraph.Reaches (eagerContexts graph contexts)

/-- Of two contexts that a node can get, no edge carries less out of the one that has more, and the
contexts at the start are of the kind that edges carry. -/
structure OwnerGraph.Orderless : Prop where
  more : ∀ before after, graph.Reaches before → graph.Reaches after → ∀ node, before node ≠ ∅ →
    Upto (before node) (after node) → ∀ edge ∈ graph.outgoing node,
      Upto (propagated (graph.uncertain node) edge.2 (before node))
        (propagated (graph.uncertain node) edge.2 (after node))
  sound : ∀ node, Sound (graph.contexts node)

structure Renumbers (number : Fin n ≃ Fin n) (graph other : OwnerGraph n) : Prop where
  contexts : ∀ node, other.contexts (number node) = graph.contexts node
  uncertain : ∀ node, other.uncertain (number node) = graph.uncertain node
  outgoing : ∀ node, (other.outgoing (number node)).Perm
    ((graph.outgoing node).map fun edge => (number edge.1, edge.2))

variable {graph} {start contexts start' contexts' : Fin n → Context} {number : Fin n ≃ Fin n}
  {other : OwnerGraph n}

private theorem OwnerGraph.Reaches.sound (sound : ∀ node, Sound (graph.contexts node))
    (reaches : graph.Reaches contexts) (node : Fin n) : Sound (contexts node) := by
  induction reaches generalizing node with
  | start => exact sound node
  | @push contexts source edge _ _ _ ih =>
    have sent := propagated_sound (graph.uncertain source) edge.2 (ih source)
    have before := ih node
    unfold Sound at before sent ⊢
    simp only [mem_raise]
    tauto
  | eager _ _ ih =>
    have before := ih node
    unfold Sound at before ⊢
    simp only [mem_eagerContexts, reduceCtorEq, false_and, or_false]
    exact fun held => .inl (before held)

private theorem OwnerGraph.Reaches.uncalled {node : Fin n}
    (uncalled : ∀ source, ∀ edge ∈ graph.outgoing source, edge.1 ≠ node)
    (reaches : graph.Reaches contexts) : contexts node = graph.contexts node := by
  induction reaches with
  | start => rfl
  | push _ _ member ih => exact (if_neg (uncalled _ _ member).symm).trans ih
  | eager _ _ ih =>
    ext bit
    rw [mem_eagerContexts, ih, or_iff_left]
    rintro ⟨-, source, -, member⟩
    exact uncalled source _ member rfl

private theorem orderless_of_kinds (sound : ∀ node, Sound (graph.contexts node))
    (kinds : ∀ node, (∀ edge ∈ graph.outgoing node, edge.2.Monotone) ∨
      ∀ source, ∀ edge ∈ graph.outgoing source, edge.1 ≠ node) : graph.Orderless := by
  refine ⟨fun before after first second node _ upto edge member => ?_, sound⟩
  rcases kinds node with monotone | uncalled
  · exact propagated_mono (monotone edge member) (first.sound sound node) (second.sound sound node)
      upto
  · rw [first.uncalled uncalled, second.uncalled uncalled]
    exact fun bit held => .inr held

section

variable (renumbers : Renumbers number graph other)

include renumbers

private theorem Renumbers.mem (node target : Fin n) (kind : OwnerEdgeKind) :
    (number target, kind) ∈ other.outgoing (number node) ↔ (target, kind) ∈ graph.outgoing node := by
  rw [(renumbers.outgoing node).mem_iff]
  simp

private theorem Renumbers.symm : Renumbers number.symm other graph := by
  refine ⟨fun node => ?_, fun node => ?_, fun node => ?_⟩
  · rw [← renumbers.contexts, number.apply_symm_apply]
  · rw [← renumbers.uncertain, number.apply_symm_apply]
  · have swapped := (renumbers.outgoing (number.symm node)).map
      fun edge => (number.symm edge.1, edge.2)
    simpa [Function.comp_def] using swapped.symm

private theorem Renumbers.closed (closed : graph.Closed contexts) :
    other.Closed fun node => contexts (number.symm node) := by
  intro node held edge member
  rw [← renumbers.symm.uncertain]
  exact closed _ held (number.symm edge.1, edge.2) ((renumbers.symm.mem ..).mpr member)

private theorem Renumbers.reaches (reaches : graph.Reaches contexts) :
    other.Reaches fun node => contexts (number.symm node) := by
  induction reaches with
  | start =>
    convert OwnerGraph.Reaches.start using 1
    exact funext renumbers.symm.contexts
  | @push contexts source edge _ held member ih =>
    have held' : contexts (number.symm (number source)) ≠ ∅ := by rwa [number.symm_apply_apply]
    have pushed := ih.push held' ((renumbers.mem source edge.1 edge.2).mpr member)
    rw [number.symm_apply_apply, renumbers.uncertain] at pushed
    convert pushed using 1
    funext node
    simp only [raise, number.symm_apply_eq]
  | @eager contexts _ closed ih =>
    convert ih.eager (renumbers.closed closed) using 1
    funext node
    ext bit
    rw [mem_eagerContexts, mem_eagerContexts]
    refine or_congr_right (and_congr_right fun _ => ⟨?_, ?_⟩)
    · rintro ⟨source, empty, call⟩
      refine ⟨number source, by rwa [number.symm_apply_apply], ?_⟩
      rwa [← number.apply_symm_apply node, renumbers.mem]
    · rintro ⟨source, empty, call⟩
      exact ⟨number.symm source, empty, (renumbers.symm.mem ..).mpr call⟩

private theorem Renumbers.still (orderless : graph.Orderless) : other.Orderless := by
  refine ⟨fun before after first second node held upto edge member => ?_, fun node => ?_⟩
  · have more := orderless.more _ _ (renumbers.symm.reaches first) (renumbers.symm.reaches second)
      (number.symm node)
    simp only [Equiv.symm_symm, number.apply_symm_apply, renumbers.symm.uncertain] at more
    exact more held upto (number.symm edge.1, edge.2) ((renumbers.symm.mem ..).mpr member)
  · rw [← number.apply_symm_apply node, renumbers.contexts]
    exact orderless.sound _

end

structure Least (graph : OwnerGraph n) (start contexts : Fin n → Context) : Prop where
  reaches : graph.Reaches contexts
  above : ∀ node, start node ⊆ contexts node
  least : ∀ bound, graph.Reaches bound → graph.Closed bound →
    (∀ node, Upto (start node) (bound node)) → ∀ node, Upto (contexts node) (bound node)

variable (orderless : graph.Orderless)

include orderless

private theorem Least.push (least : Least graph start contexts)
    {source : Fin n} {edge : Fin n × OwnerEdgeKind} (held : contexts source ≠ ∅)
    (member : edge ∈ graph.outgoing source) : Least graph start (raise contexts edge.1
      (propagated (graph.uncertain source) edge.2 (contexts source))) := by
  refine ⟨least.reaches.push held member, fun node => (least.above node).trans (le_raise ..),
    fun bound reaches closed upto node bit raised => ?_⟩
  have below := least.least bound reaches closed upto
  rcases (mem_raise ..).mp raised with before | ⟨rfl, pushed⟩
  · exact below node bit before
  · have nonempty := mt ((below source).eq_empty (least.reaches.sound orderless.sound source)) held
    exact (orderless.more _ _ least.reaches reaches source held (below source) edge member bit
      pushed).imp_right fun carried => closed source nonempty edge member carried

private theorem propagate_least (reaches : graph.Reaches start)
    (returned : Returns (propagateOwnerContexts graph start) contexts) :
    Least graph start contexts ∧ graph.Closed contexts := by
  have started : Least graph start start := ⟨reaches, fun _ => subset_rfl, fun _ _ _ upto => upto⟩
  obtain ⟨result, returned', least, closed⟩ := propagate_returns graph.flow
    (fun _ _ _ least held member => .push orderless least held member) List.mem_finRange started
  obtain rfl := returned.unique returned'
  exact ⟨least, closed⟩

variable (renumbers : Renumbers number graph other)

include renumbers

private theorem propagate_upto (reaches : graph.Reaches start) (reaches' : other.Reaches start')
    (upto : ∀ node, Upto (start node) (start' (number node)))
    (returned : Returns (propagateOwnerContexts graph start) contexts)
    (returned' : Returns (propagateOwnerContexts other start') contexts') (node : Fin n) :
    Upto (contexts node) (contexts' (number node)) := by
  obtain ⟨least, -⟩ := propagate_least orderless reaches returned
  obtain ⟨least', closed⟩ := propagate_least (renumbers.still orderless) reaches' returned'
  refine least.least (fun node => contexts' (number node)) (renumbers.symm.reaches least'.reaches)
    (renumbers.symm.closed closed) (fun node => ?_) node
  exact fun bit member => (upto node bit member).imp_right fun held => least'.above _ held

private theorem first_upto (returned : Returns (propagateOwnerContexts graph graph.contexts) contexts)
    (returned' : Returns (propagateOwnerContexts other other.contexts) contexts') (node : Fin n) :
    Upto (contexts node) (contexts' (number node)) := by
  refine propagate_upto orderless renumbers .start .start (fun node bit member => .inr ?_)
    returned returned' node
  rwa [renumbers.contexts]

private theorem solve_upto (returned : Returns (solve graph) contexts)
    (returned' : Returns (solve other) contexts') (node : Fin n) :
    Upto (contexts node) (contexts' (number node)) := by
  obtain ⟨between, first, second⟩ := solve_spec graph returned
  obtain ⟨between', first', second'⟩ := solve_spec other returned'
  have orderless' := renumbers.still orderless
  obtain ⟨least, closed⟩ := propagate_least orderless .start first
  obtain ⟨least', closed'⟩ := propagate_least orderless' .start first'
  refine propagate_upto orderless renumbers (least.reaches.eager closed)
    (least'.reaches.eager closed') (fun node bit member => ?_) second second' node
  rw [mem_eagerContexts] at member ⊢
  rcases member with before | ⟨rfl, source, empty, call⟩
  · exact (first_upto orderless renumbers first first' node bit before).imp_right .inl
  · -- a function without a context has none under its other number either
    have upto := first_upto orderless' renumbers.symm first' first (number source)
    rw [number.symm_apply_apply] at upto
    exact .inr (.inr ⟨rfl, number source,
      upto.eq_empty (least'.reaches.sound orderless'.sound _) empty, (renumbers.mem ..).mpr call⟩)

end

/-- A tracked effect's body that a leaf body calls, and a function that is called from that body and
from an unowned leaf. -/
def leafRace (first second : Fin 5) : OwnerGraph 5 where
  contexts node := if node = first then {.leaf} else if node = second then {.owned} else ∅
  outgoing node :=
    if node = first then [(3, .preserve)] else if node = second then [(2, .leaf)]
    else if node = 2 then [(3, .preserve)] else if node = 3 then [(4, .leaf)] else []
  uncertain _ := false

/-- An owned function that may resume unowned, a callee that calls back, and an owned caller of both
with an effect. -/
def resumeChain (first second : Fin 4) : OwnerGraph 4 where
  contexts node := if node = first ∨ node = 2 then {.owned} else ∅
  outgoing node :=
    if node = first then [(second, .mayResumeUnowned)]
    else if node = second then [(first, .eagerCall), (first, .queuedLeaf)]
    else if node = 2 then [(3, .leaf), (first, .preserve)] else []
  uncertain _ := false

end SolidChecker.Owners
