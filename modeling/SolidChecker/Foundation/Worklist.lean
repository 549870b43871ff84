/- digest: Sets of flags that flow along the edges of a finite graph from a queue. -/

import Mathlib.Algebra.BigOperators.Group.Finset.Basic
import Mathlib.Algebra.Order.BigOperators.Group.Finset
import Mathlib.Data.Fintype.Card
import SolidChecker.Foundation.Loop

namespace SolidChecker.Foundation.Worklist

open List

open Loop (Returns whileLoop whileLoop_returns_of_measure whileLoop_keeps Ends)

variable {N E B : Type} [DecidableEq N] [DecidableEq B]

structure Flow (N E B : Type) where
  edges : N → List (N × E)
  send : N → E → Finset B → Finset B

structure Work (N B : Type) where
  values : N → Finset B
  queue : List N

def raise (values : N → Finset B) (target : N) (sent : Finset B) (node : N) : Finset B :=
  if node = target then values node ∪ sent else values node

def Work.push (work : Work N B) (target : N) (sent : Finset B) : Work N B :=
  if sent ⊆ work.values target then work
  else ⟨raise work.values target sent,
    if target ∈ work.queue then work.queue else work.queue ++ [target]⟩

variable (flow : Flow N E B)

def Work.pushes (source : N) (edges : List (N × E)) (work : Work N B) : Work N B :=
  edges.foldl (fun work edge =>
    work.push edge.1 (flow.send source edge.2 (work.values source))) work

def Work.step (work : Work N B) : Option (Work N B) :=
  match work.queue with
  | [] => none
  | source :: queue => some (Work.pushes flow source (flow.edges source) ⟨work.values, queue⟩)

def start (nodes : List N) (values : N → Finset B) : Work N B :=
  ⟨values, nodes.filter fun node => decide (values node ≠ ∅)⟩

def propagate (nodes : List N) (values : N → Finset B) (fuel : ℕ) : Option (N → Finset B) :=
  (whileLoop (Work.step flow) fuel (start nodes values)).map Work.values

section

variable (work : Work N B) (values : N → Finset B) (target : N) (sent : Finset B)

theorem mem_raise (node : N) (flag : B) : flag ∈ raise values target sent node ↔
    flag ∈ values node ∨ node = target ∧ flag ∈ sent := by
  unfold raise
  split <;> simp [*]

theorem le_raise (node : N) : values node ⊆ raise values target sent node :=
  fun _ held => (mem_raise ..).mpr (.inl held)

private theorem raise_self {values : N → Finset B} {sent : Finset B} (held : sent ⊆ values target) :
    raise values target sent = values := by
  funext node
  ext flag
  rw [mem_raise]
  exact ⟨fun member => member.elim id fun ⟨same, new⟩ => same ▸ held new, .inl⟩

private theorem push_values : (work.push target sent).values = raise work.values target sent := by
  unfold Work.push
  split
  · rename_i held
    exact (raise_self target held).symm
  · rfl

private theorem mem_push_queue (node : N) : node ∈ (work.push target sent).queue ↔
    node ∈ work.queue ∨ node = target ∧ ¬ sent ⊆ work.values target := by
  unfold Work.push
  split
  · simp [*]
  · rename_i raised
    simp only [raised, not_false_eq_true, and_true]
    split
    · rename_i queued
      exact ⟨.inl, fun held => held.elim id fun same => same ▸ queued⟩
    · simp

private theorem push_unqueued {node : N} (unqueued : node ∉ (work.push target sent).queue) :
    (work.push target sent).values node = work.values node := by
  rw [mem_push_queue, not_or, not_and_not_right] at unqueued
  rw [push_values]
  by_cases same : node = target
  · rw [raise_self target (unqueued.2 same)]
  · exact if_neg same

/-- What is still to come: every flag that can still be set costs a push and a visit. -/
def remaining [Fintype N] [Fintype B] (work : Work N B) : ℕ :=
  2 * ∑ node, (Fintype.card B - (work.values node).card) + work.queue.length

private theorem push_remaining [Fintype N] [Fintype B] :
    remaining (work.push target sent) ≤ remaining work := by
  unfold Work.push
  split
  · rfl
  · rename_i raised
    have larger : (work.values target).card < (raise work.values target sent target).card := by
      refine Finset.card_lt_card ⟨le_raise .., fun back => raised fun flag new => ?_⟩
      exact back ((mem_raise ..).mpr (.inr ⟨rfl, new⟩))
    have fewer : ∑ node, (Fintype.card B - (raise work.values target sent node).card) <
        ∑ node, (Fintype.card B - (work.values node).card) := by
      refine Finset.sum_lt_sum (fun node _ => Nat.sub_le_sub_left (Finset.card_le_card
        (le_raise ..)) _) ⟨target, Finset.mem_univ _, ?_⟩
      have bound := Finset.card_le_univ (raise work.values target sent target)
      omega
    have length : (if target ∈ work.queue then work.queue
        else work.queue ++ [target]).length ≤ work.queue.length + 1 := by
      split <;> simp
    unfold remaining
    dsimp only
    omega

end

section

variable {flow} {property : (N → Finset B) → Prop}
  (pushed : ∀ values source edge, property values → values source ≠ ∅ → edge ∈ flow.edges source →
    property (raise values edge.1 (flow.send source edge.2 (values source))))

/-- What holds between visits: what is queued holds something, and what is not has handed on what it
holds. -/
structure Running (flow : Flow N E B) (property : (N → Finset B) → Prop) (work : Work N B) :
    Prop where
  holds : property work.values
  queued : ∀ node ∈ work.queue, work.values node ≠ ∅
  handed : ∀ node, node ∉ work.queue → work.values node ≠ ∅ → ∀ edge ∈ flow.edges node,
    flow.send node edge.2 (work.values node) ⊆ work.values edge.1

structure Visiting (flow : Flow N E B) (property : (N → Finset B) → Prop) (source : N)
    (served : List (N × E)) (work : Work N B) : Prop where
  holds : property work.values
  queued : ∀ node ∈ work.queue, work.values node ≠ ∅
  here : work.values source ≠ ∅
  handed : ∀ node, node ∉ work.queue → work.values node ≠ ∅ →
    ∀ edge ∈ if node = source then served else flow.edges node,
      flow.send node edge.2 (work.values node) ⊆ work.values edge.1

include pushed

private theorem Visiting.push {source : N} {served : List (N × E)} {edge : N × E} {work : Work N B}
    (visiting : Visiting flow property source served work) (member : edge ∈ flow.edges source) :
    Visiting flow property source (edge :: served)
      (work.push edge.1 (flow.send source edge.2 (work.values source))) := by
  have grows := le_raise work.values edge.1 (flow.send source edge.2 (work.values source))
  refine ⟨?_, fun node queued none => ?_, fun none => ?_, fun node unqueued nonempty next served => ?_⟩
  · rw [push_values]
    exact pushed _ source edge visiting.holds visiting.here member
  · rw [push_values] at none
    rcases (mem_push_queue _ _ _ node).mp queued with before | ⟨rfl, raised⟩
    · exact visiting.queued node before (Finset.subset_empty.mp (none ▸ grows node))
    · exact raised fun flag new => absurd ((mem_raise ..).mpr (.inr ⟨rfl, new⟩))
        (none ▸ Finset.notMem_empty flag)
  · rw [push_values] at none
    exact visiting.here (Finset.subset_empty.mp (none ▸ grows source))
  · rw [push_unqueued _ _ _ unqueued] at nonempty ⊢
    rw [push_values]
    have before := visiting.handed node (fun held => unqueued ((mem_push_queue _ _ _ node).mpr
      (.inl held))) nonempty
    by_cases same : node = source
    · subst same
      rw [if_pos rfl] at served before
      rcases mem_cons.mp served with rfl | earlier
      · exact fun flag new => (mem_raise ..).mpr (.inr ⟨rfl, new⟩)
      · exact (before next earlier).trans (grows next.1)
    · rw [if_neg same] at served before
      exact (before next served).trans (grows next.1)

variable {work next : Work N B}

private theorem Running.step (running : Running flow property work)
    (turn : work.step flow = some next) : Running flow property next := by
  unfold Work.step at turn
  split at turn
  · cases turn
  rename_i source queue queued
  cases turn
  have fold : ∀ (edges served : List (N × E)) (work : Work N B), (∀ edge ∈ edges,
      edge ∈ flow.edges source) → Visiting flow property source served work →
      Visiting flow property source (edges.reverse ++ served) (work.pushes flow source edges) := by
    intro edges
    induction edges with
    | nil => exact fun _ _ _ visiting => visiting
    | cons edge edges ih =>
      intro served work members visiting
      have after := ih _ _ (fun other member => members other (mem_cons_of_mem _ member))
        (visiting.push pushed (members edge mem_cons_self))
      rwa [reverse_cons, append_assoc]
  have entered : Visiting flow property source [] ⟨work.values, queue⟩ := by
    refine ⟨running.holds, fun node member => running.queued node (queued ▸ mem_cons_of_mem _
      member), running.queued source (queued ▸ mem_cons_self), fun node unqueued held => ?_⟩
    split
    · exact fun _ none => absurd none not_mem_nil
    · rename_i differ
      refine running.handed node (fun member => ?_) held
      rw [queued] at member
      exact (mem_cons.mp member).elim differ unqueued
  have visited := fold _ _ _ (fun _ member => member) entered
  refine ⟨visited.holds, visited.queued, fun node unqueued held edge member =>
    visited.handed node unqueued held edge ?_⟩
  split
  · rename_i same
    subst same
    simpa using member
  · exact member

omit pushed in
private theorem step_remaining [Fintype N] [Fintype B]
    (turn : work.step flow = some next) : remaining next < remaining work := by
  unfold Work.step at turn
  split at turn
  · cases turn
  rename_i source queue queued
  cases turn
  have fold : ∀ (edges : List (N × E)) (work : Work N B),
      remaining (work.pushes flow source edges) ≤ remaining work := by
    intro edges
    induction edges with
    | nil => exact fun _ => le_rfl
    | cons edge edges ih => exact fun work => (ih _).trans (push_remaining _ _ _)
  refine (fold _ _).trans_lt ?_
  simp [remaining, queued]

omit pushed [DecidableEq N] in
private theorem running_start {nodes : List N} (all : ∀ node, node ∈ nodes) {values : N → Finset B}
    (initial : property values) : Running flow property (start nodes values) := by
  refine ⟨initial, fun node member => of_decide_eq_true (mem_filter.mp member).2,
    fun node unqueued held => absurd ?_ unqueued⟩
  exact mem_filter.mpr ⟨all node, decide_eq_true held⟩

variable (flow) in
theorem propagate_returns [Fintype N] [Fintype B] {nodes : List N} (all : ∀ node, node ∈ nodes)
    {values : N → Finset B} (initial : property values) :
    ∃ result, Returns (propagate flow nodes values) result ∧ property result ∧
      ∀ node, result node ≠ ∅ → ∀ edge ∈ flow.edges node,
        flow.send node edge.2 (result node) ⊆ result edge.1 := by
  obtain ⟨result, ⟨enough, returned⟩, running, stopped⟩ :=
    whileLoop_returns_of_measure (Work.step flow) (Running flow property)
      (fun _ _ held turn => held.step pushed turn) remaining
      (fun _ _ _ turn => step_remaining turn) _ (running_start all initial)
  have empty : result.queue = [] := by
    unfold Work.step at stopped
    split at stopped
    · assumption
    · cases stopped
  refine ⟨result.values, ⟨enough, fun fuel bound => ?_⟩, running.holds,
    fun node => running.handed node (by simp [empty])⟩
  have ended : whileLoop (Work.step flow) fuel (start nodes values) = some result :=
    returned fuel bound
  rw [propagate, ended, Option.map_some]

end

theorem propagate_settled [Fintype N] [Fintype B] {flow : Flow N E B} {nodes : List N}
    (all : ∀ node, node ∈ nodes) {values : N → Finset B}
    (settled : ∀ node, values node ≠ ∅ → ∀ edge ∈ flow.edges node,
      flow.send node edge.2 (values node) ⊆ values edge.1) :
    Returns (propagate flow nodes values) values := by
  have kept : ∀ other source edge, other = values → other source ≠ ∅ → edge ∈ flow.edges source →
      raise other edge.1 (flow.send source edge.2 (other source)) = values := by
    rintro _ source edge rfl held member
    exact raise_self _ (settled source held edge member)
  obtain ⟨result, returned, rfl, -⟩ := propagate_returns flow kept all rfl
  exact returned

section

variable {flow other : Flow N E B} (inside : N → Prop) [DecidablePred inside]

def Flow.outside (flow : Flow N E B) : Flow N E B :=
  ⟨fun node => if inside node then [] else flow.edges node, flow.send⟩

def Work.left (work : Work N B) : List N := work.queue.filter fun node => decide (¬ inside node)

/-- A work that agrees with another one outside a part and holds no more inside it. -/
structure Tracks (ghost work : Work N B) : Prop where
  same : ∀ node, ¬ inside node → ghost.values node = work.values node
  below : ∀ node, ghost.values node ⊆ work.values node
  queue : ghost.left inside = work.left inside

variable {inside} {ghost work : Work N B} {source target : N} {sent : Finset B}

private theorem left_push : (work.push target sent).left inside =
    if inside target ∨ sent ⊆ work.values target ∨ target ∈ work.left inside
    then work.left inside else work.left inside ++ [target] := by
  unfold Work.left Work.push
  by_cases held : sent ⊆ work.values target
  · simp [held]
  by_cases queued : target ∈ work.queue <;> by_cases within : inside target <;>
    simp [held, queued, within]

private theorem Tracks.push_inside (tracks : Tracks inside ghost work) (within : inside target) :
    Tracks inside ghost (work.push target sent) := by
  refine ⟨fun node without => ?_, fun node => ?_, ?_⟩
  · rw [push_values, tracks.same node without]
    refine (if_neg ?_).symm
    rintro rfl
    exact without within
  · rw [push_values]
    exact (tracks.below node).trans (le_raise ..)
  · rw [tracks.queue, left_push, if_pos (.inl within)]

private theorem Tracks.push (tracks : Tracks inside ghost work) :
    Tracks inside (ghost.push target sent) (work.push target sent) := by
  refine ⟨fun node without => ?_, fun node flag => ?_, ?_⟩
  · simp only [push_values, raise, tracks.same node without]
  · simp only [push_values, mem_raise]
    exact Or.imp_left (tracks.below node ·)
  · rw [left_push, left_push, tracks.queue]
    by_cases within : inside target
    · rw [if_pos (.inl within), if_pos (.inl within)]
    · rw [tracks.same target within]

private theorem le_pushes (edges : List (N × E)) (work : Work N B) (node : N) :
    work.values node ⊆ (work.pushes flow source edges).values node := by
  induction edges generalizing work with
  | nil => rfl
  | cons edge edges ih =>
    refine (le_raise work.values edge.1 (flow.send source edge.2 (work.values source)) node).trans ?_
    rw [← push_values]
    exact ih _

theorem ends_of_returns {nodes : List N} {values result : N → Finset B}
    (returned : Returns (propagate flow nodes values) result) :
    ∃ last, Ends (Work.step flow) (start nodes values) last ∧ last.values = result := by
  obtain ⟨fuel, returned⟩ := returned
  obtain ⟨last, ended, rfl⟩ := Option.map_eq_some_iff.mp (returned fuel le_rfl)
  exact ⟨last, ⟨fuel, ended⟩, rfl⟩

theorem le_ends {last : Work N B} (ends : Ends (Work.step flow) work last) (node : N) :
    work.values node ⊆ last.values node := by
  obtain ⟨fuel, returned⟩ := ends
  refine (whileLoop_keeps (Work.step flow) (fun next => work.values node ⊆ next.values node)
    (fun before next below turn => below.trans ?_) subset_rfl returned).1
  unfold Work.step at turn
  split at turn
  · cases turn
  · rename_i source queue queued
    cases turn
    exact le_pushes (flow.edges source) ⟨before.values, queue⟩ node

private theorem ends_skip {skipped queue : List N} {values : N → Finset B} {last : Work N B}
    (within : ∀ node ∈ skipped, inside node)
    (ends : Ends (Work.step (flow.outside inside)) ⟨values, skipped ++ queue⟩ last) :
    Ends (Work.step (flow.outside inside)) ⟨values, queue⟩ last := by
  induction skipped with
  | nil => exact ends
  | cons node skipped ih =>
    obtain ⟨here, later⟩ := forall_mem_cons.mp within
    refine ih later (ends.turn ?_)
    simp [Work.step, Work.pushes, Flow.outside, here]

variable {property : (N → Finset B) → Prop} {last final : Work N B}
  (apart : ∀ node, inside node → ∀ edge ∈ other.edges node, inside edge.1)
  (edges : other.edges = flow.edges)
  (agree : ∀ node, ¬ inside node → other.send node = flow.send node)
  (within : ∀ values target sent, property values → sent ⊆ last.values target →
    property (raise values target sent))
  (pushed : ∀ values source edge, inside source → property values → values source ≠ ∅ →
    (∀ node, values node ⊆ final.values node) → edge ∈ other.edges source →
    property (raise values edge.1 (other.send source edge.2 (values source))))

include apart pushed in
private theorem pushes_inside (here : inside source) (members : List (N × E)) (work : Work N B)
    (own : ∀ edge ∈ members, edge ∈ other.edges source) (held : work.values source ≠ ∅)
    (holds : property work.values) (tracks : Tracks inside ghost work)
    (bound : ∀ node, (work.pushes other source members).values node ⊆ final.values node) :
    property (work.pushes other source members).values ∧
      Tracks inside ghost (work.pushes other source members) := by
  induction members generalizing work with
  | nil => exact ⟨holds, tracks⟩
  | cons edge members ih =>
    obtain ⟨mine, others⟩ := forall_mem_cons.mp own
    have below := fun node => (le_pushes (edge :: members) work node).trans (bound node)
    refine ih _ others (fun none => held ?_) ?_ (tracks.push_inside (apart source here edge mine)) bound
    · rw [push_values] at none
      exact Finset.subset_empty.mp (none ▸ le_raise ..)
    · rw [push_values]
      exact pushed _ source edge here holds held below mine

include agree within in
private theorem pushes_outside (without : ¬ inside source) (members : List (N × E)) (ghost work : Work N B)
    (holds : property work.values) (tracks : Tracks inside ghost work)
    (bound : ∀ node, (ghost.pushes flow source members).values node ⊆ last.values node) :
    property (work.pushes other source members).values ∧
      Tracks inside (ghost.pushes flow source members) (work.pushes other source members) := by
  induction members generalizing ghost work with
  | nil => exact ⟨holds, tracks⟩
  | cons edge members ih =>
    have sent : other.send source edge.2 (work.values source) =
        flow.send source edge.2 (ghost.values source) := by
      rw [agree source without, tracks.same source without]
    have reached : flow.send source edge.2 (ghost.values source) ⊆ last.values edge.1 := by
      refine fun flag new => bound edge.1 (le_pushes members _ edge.1 ?_)
      rw [push_values, mem_raise]
      exact .inr ⟨rfl, new⟩
    refine ih (ghost.push edge.1 (flow.send source edge.2 (ghost.values source)))
      (work.push edge.1 (other.send source edge.2 (work.values source))) ?_ ?_ bound
    · rw [push_values, sent]
      exact within _ _ _ holds reached
    · rw [sent]
      exact tracks.push

include apart edges agree within pushed

private theorem step_part {next : Work N B} (running : Running other (fun _ => True) work)
    (ended : Ends (Work.step other) work final) (holds : property work.values)
    (tracked : ∃ ghost, Tracks inside ghost work ∧ Ends (Work.step (flow.outside inside)) ghost last)
    (turn : work.step other = some next) : property next.values ∧
      ∃ ghost, Tracks inside ghost next ∧ Ends (Work.step (flow.outside inside)) ghost last := by
  obtain ⟨ghost, tracks, ends⟩ := tracked
  have bound := le_ends (ended.turn turn)
  obtain ⟨values, _ | ⟨source, queue⟩⟩ := work
  · cases turn
  cases turn
  by_cases here : inside source
  · have popped : Tracks inside ghost ⟨values, queue⟩ :=
      ⟨tracks.same, tracks.below, by simpa [Work.left, here] using tracks.queue⟩
    obtain ⟨holds', tracks'⟩ := pushes_inside apart pushed here (other.edges source)
      ⟨values, queue⟩ (fun _ member => member) (running.queued source mem_cons_self) holds popped bound
    exact ⟨holds', ghost, tracks', ends⟩
  · have first : ghost.left inside = source :: Work.left inside ⟨values, queue⟩ := by
      simpa [Work.left, here] using tracks.queue
    obtain ⟨skipped, rest, split, passed, -, others⟩ := filter_eq_cons_iff.mp first
    obtain ⟨values', _⟩ := ghost
    obtain rfl : _ = skipped ++ source :: rest := split
    have visited : Ends (Work.step (flow.outside inside))
        (Work.pushes flow source (flow.edges source) ⟨values', rest⟩) last := by
      refine (ends_skip (fun node member => by simpa using passed node member) ends).turn ?_
      simp [Work.step, Work.pushes, Flow.outside, here]
    have popped : Tracks inside ⟨values', rest⟩ ⟨values, queue⟩ :=
      ⟨tracks.same, tracks.below, others⟩
    obtain ⟨holds', tracks'⟩ := pushes_outside agree within here (flow.edges source) ⟨values', rest⟩
      ⟨values, queue⟩ holds popped (le_ends visited)
    rw [← edges] at tracks' holds' visited
    exact ⟨holds', _, tracks', visited⟩

theorem propagate_part {nodes : List N} (all : ∀ node, node ∈ nodes)
    {values values' : N → Finset B} (same : ∀ node, ¬ inside node → values node = values' node)
    (below : ∀ node, values node ⊆ values' node) (initial : property values')
    (ghosted : Ends (Work.step (flow.outside inside)) (start nodes values) last)
    (ended : Ends (Work.step other) (start nodes values') final) :
    property final.values ∧ (∀ node, ¬ inside node → last.values node = final.values node) ∧
      ∀ node, last.values node ⊆ final.values node := by
  have started : Tracks inside (start nodes values) (start nodes values') := by
    refine ⟨same, below, ?_⟩
    unfold start Work.left
    rw [filter_filter, filter_filter]
    refine filter_congr fun node _ => ?_
    by_cases within : inside node
    · simp [within]
    · simp [same node within]
  have preserved : ∀ work next, ((Running other (fun _ => True) work ∧
      Ends (Work.step other) work final) ∧ property work.values ∧ ∃ ghost, Tracks inside ghost work ∧
        Ends (Work.step (flow.outside inside)) ghost last) → work.step other = some next →
      (Running other (fun _ => True) next ∧ Ends (Work.step other) next final) ∧
        property next.values ∧ ∃ ghost, Tracks inside ghost next ∧
        Ends (Work.step (flow.outside inside)) ghost last :=
    fun work next ⟨⟨running, ended⟩, holds, tracked⟩ turn =>
      ⟨⟨running.step (fun _ _ _ _ _ _ => trivial) turn, ended.turn turn⟩,
        step_part apart edges agree within pushed running ended holds tracked turn⟩
  obtain ⟨fuel, returned⟩ := id ended
  obtain ⟨⟨-, holds, ghost, tracks, ends⟩, stopped⟩ := whileLoop_keeps (Work.step other) _ preserved
    ⟨⟨running_start all trivial, ended⟩, initial, _, started, ghosted⟩ returned
  obtain ⟨values, _ | _⟩ := final
  · obtain ⟨values', queue⟩ := ghost
    have none : ∀ node ∈ queue, inside node := by
      simpa [Work.left, filter_eq_nil_iff] using tracks.queue
    rw [← append_nil queue] at ends
    obtain rfl := (ends_skip none ends).eq_of_stopped rfl
    exact ⟨holds, tracks.same, tracks.below⟩
  · cases stopped

end

end SolidChecker.Foundation.Worklist
