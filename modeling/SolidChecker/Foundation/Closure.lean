/- digest: A stack-driven walk returns exactly the forward closure of its starting set. -/

import SolidChecker.Foundation.Loop
import Mathlib.Data.Finset.Card

namespace SolidChecker.Foundation.Closure

open List

open Loop (Returns whileLoop whileLoop_returns_of_measure)

variable {α : Type*} [DecidableEq α] (successors : α → List α)

def Step (a b : α) : Prop := b ∈ successors a

abbrev Reaches : α → α → Prop :=
  Relation.ReflTransGen (Step successors)

structure Walk (α : Type*) where
  stack : List α
  seen : Finset α

def Walk.push (walk : Walk α) (node : α) : Walk α :=
  if node ∈ walk.seen then walk else ⟨node :: walk.stack, insert node walk.seen⟩

def Walk.expand (walk : Walk α) : Option (Walk α) :=
  match walk.stack with
  | [] => none
  | node :: stack => some ((successors node).foldl Walk.push ⟨stack, walk.seen⟩)

def closeUnder (fuel : ℕ) (walk : Walk α) : Option (Finset α) :=
  (whileLoop (Walk.expand successors) fuel walk).map Walk.seen

private theorem push_seen (walk : Walk α) (node : α) : (walk.push node).seen = insert node walk.seen := by
  unfold Walk.push
  split
  · rename_i member
    exact (Finset.insert_eq_of_mem member).symm
  · rfl

private theorem pushAll_seen (nodes : List α) (walk : Walk α) (x : α) :
    x ∈ (nodes.foldl Walk.push walk).seen ↔ x ∈ nodes ∨ x ∈ walk.seen := by
  induction nodes generalizing walk with
  | nil => simp
  | cons node nodes ih =>
    rw [foldl_cons, ih, push_seen, Finset.mem_insert, mem_cons]
    tauto

private theorem pushAll_stack (nodes : List α) (walk : Walk α) (x : α) :
    x ∈ (nodes.foldl Walk.push walk).stack ↔ x ∈ walk.stack ∨ (x ∈ nodes ∧ x ∉ walk.seen) := by
  induction nodes generalizing walk with
  | nil => simp
  | cons node nodes ih =>
    rw [foldl_cons, ih, push_seen, Finset.mem_insert, mem_cons]
    unfold Walk.push
    split
    · rename_i member
      constructor
      · tauto
      · rintro (held | ⟨rfl | later, unseen⟩)
        · exact .inl held
        · exact absurd member unseen
        · by_cases same : x = node
          · exact absurd (same ▸ member) unseen
          · exact .inr ⟨later, by tauto⟩
    · rename_i fresh
      simp only [mem_cons]
      constructor
      · rintro ((rfl | held) | ⟨later, unseen⟩)
        · exact .inr ⟨.inl rfl, fresh⟩
        · exact .inl held
        · exact .inr ⟨.inr later, by tauto⟩
      · rintro (held | ⟨rfl | later, unseen⟩)
        · exact .inl (.inr held)
        · exact .inl (.inl rfl)
        · by_cases same : x = node
          · exact .inl (.inl same)
          · exact .inr ⟨later, by tauto⟩

/-- What the walk keeps: the stack has been met, every other met node has all its
successors met, and every met node is reached from the starting set. -/
structure Walk.Sound (successors : α → List α) (start : Finset α) (walk : Walk α) : Prop where
  stacked : ∀ x ∈ walk.stack, x ∈ walk.seen
  expanded : ∀ x ∈ walk.seen, x ∉ walk.stack → ∀ y ∈ successors x, y ∈ walk.seen
  started : start ⊆ walk.seen
  reached : ∀ x ∈ walk.seen, ∃ a ∈ start, Reaches successors a x

variable {start : Finset α}

private theorem expand_sound {successors : α → List α} {walk next : Walk α}
    (sound : walk.Sound successors start) (turn : walk.expand successors = some next) :
    next.Sound successors start := by
  obtain ⟨stack, seen⟩ := walk
  cases stack with
  | nil => simp only [Walk.expand, reduceCtorEq] at turn
  | cons node stack =>
    simp only [Walk.expand, Option.some.injEq] at turn
    subst turn
    have node_seen : node ∈ seen := sound.stacked node mem_cons_self
    refine ⟨?_, ?_, ?_, ?_⟩
    · intro x member
      rw [pushAll_stack] at member
      rw [pushAll_seen]
      rcases member with held | ⟨later, -⟩
      · exact .inr (sound.stacked x (mem_cons_of_mem _ held))
      · exact .inl later
    · intro x member unstacked y edge
      rw [pushAll_seen] at member ⊢
      rw [pushAll_stack] at unstacked
      push Not at unstacked
      have met : x ∈ seen := by
        rcases member with later | met
        · exact unstacked.2 later
        · exact met
      by_cases same : x = node
      · exact .inl (same ▸ edge)
      · refine .inr (sound.expanded x met ?_ y edge)
        intro held
        rcases mem_cons.mp held with equal | held
        · exact same equal
        · exact unstacked.1 held
    · intro x member
      rw [pushAll_seen]
      exact .inr (sound.started member)
    · intro x member
      rw [pushAll_seen] at member
      rcases member with later | met
      · obtain ⟨a, start_a, path⟩ := sound.reached node node_seen
        exact ⟨a, start_a, path.tail later⟩
      · exact sound.reached x met

variable (carrier : Finset α)

def Walk.remaining (walk : Walk α) : ℕ :=
  walk.stack.length + (carrier \ walk.seen).card

private theorem push_remaining (walk : Walk α) (node : α) (inside : node ∈ carrier) :
    (walk.push node).remaining carrier = walk.remaining carrier := by
  unfold Walk.push Walk.remaining
  split
  · rfl
  · rename_i fresh
    have gone : carrier \ insert node walk.seen = (carrier \ walk.seen).erase node := by
      ext x
      simp only [Finset.mem_sdiff, Finset.mem_insert, Finset.mem_erase]
      tauto
    have held : node ∈ carrier \ walk.seen := Finset.mem_sdiff.mpr ⟨inside, fresh⟩
    have positive : 0 < (carrier \ walk.seen).card := Finset.card_pos.mpr ⟨node, held⟩
    simp only [length_cons, gone, Finset.card_erase_of_mem held]
    omega

private theorem pushAll_remaining (nodes : List α) (walk : Walk α) (inside : ∀ x ∈ nodes, x ∈ carrier) :
    (nodes.foldl Walk.push walk).remaining carrier = walk.remaining carrier := by
  induction nodes generalizing walk with
  | nil => rfl
  | cons node nodes ih =>
    rw [foldl_cons, ih _ (fun x member => inside x (mem_cons_of_mem _ member)),
      push_remaining carrier walk node (inside node mem_cons_self)]

omit [DecidableEq α] in
private theorem reaches_inside {successors : α → List α} {carrier : Finset α}
    (closed : ∀ x ∈ carrier, ∀ y ∈ successors x, y ∈ carrier) {a x : α}
    (inside : a ∈ carrier) (path : Reaches successors a x) : x ∈ carrier := by
  induction path with
  | refl => exact inside
  | tail _ edge ih => exact closed _ ih _ edge

private theorem seen_iff {successors : α → List α} {walk : Walk α}
    (sound : walk.Sound successors start) (stopped : walk.expand successors = none) (x : α) :
    x ∈ walk.seen ↔ ∃ a ∈ start, Reaches successors a x := by
  have stack_empty : walk.stack = [] := by
    cases stack : walk.stack with
    | nil => rfl
    | cons node rest => simp only [Walk.expand, stack, reduceCtorEq] at stopped
  refine ⟨sound.reached x, ?_⟩
  rintro ⟨a, start_a, path⟩
  induction path with
  | refl => exact sound.started start_a
  | tail _ edge ih =>
    exact sound.expanded _ ih (by simp only [stack_empty, not_mem_nil, not_false_eq_true]) _ edge

private theorem expand_remaining {successors : α → List α} {carrier start : Finset α}
    (closed : ∀ x ∈ carrier, ∀ y ∈ successors x, y ∈ carrier) (inside : start ⊆ carrier)
    {before next : Walk α} (sound : before.Sound successors start)
    (turn : before.expand successors = some next) :
    next.remaining carrier < before.remaining carrier := by
  obtain ⟨stack, seen⟩ := before
  cases stack with
  | nil => simp only [Walk.expand, reduceCtorEq] at turn
  | cons node stack =>
    simp only [Walk.expand, Option.some.injEq] at turn
    have node_inside : node ∈ carrier := by
      obtain ⟨a, start_a, path⟩ := sound.reached node (sound.stacked node mem_cons_self)
      exact reaches_inside closed (inside start_a) path
    rw [← turn, pushAll_remaining carrier _ _ (closed node node_inside)]
    simp only [Walk.remaining, length_cons]
    omega

section

variable (closed : ∀ x ∈ carrier, ∀ y ∈ successors x, y ∈ carrier)
  (walk : Walk α) (inside : walk.seen ⊆ carrier) (stacked : ∀ x ∈ walk.stack, x ∈ walk.seen)
  (expanded : ∀ x ∈ walk.seen, x ∉ walk.stack → ∀ y ∈ successors x, y ∈ walk.seen)

include stacked expanded in
omit [DecidableEq α] in
private theorem walk_sound : walk.Sound successors walk.seen :=
  ⟨stacked, expanded, Finset.Subset.refl _, fun x member => ⟨x, member, .refl⟩⟩

include closed inside stacked expanded

theorem closeUnder_returns : ∃ seen, Returns (fun fuel => closeUnder successors fuel walk) seen ∧
      ∀ x, x ∈ seen ↔ ∃ a ∈ walk.seen, Reaches successors a x := by
  obtain ⟨result, ⟨enough, returned⟩, sound, stopped⟩ :=
    whileLoop_returns_of_measure (Walk.expand successors) (Walk.Sound successors walk.seen)
      (fun _ _ => expand_sound) (Walk.remaining carrier)
      (fun _ _ => expand_remaining closed inside) walk
      (walk_sound successors walk stacked expanded)
  refine ⟨result.seen, ⟨enough, fun fuel bound => ?_⟩, seen_iff sound stopped⟩
  simp only [closeUnder, returned fuel bound, Option.map_some]

private theorem closeUnder_within {fuel : ℕ} (enough : walk.remaining carrier < fuel) :
    ∃ seen, closeUnder successors fuel walk = some seen ∧
      ∀ x, x ∈ seen ↔ ∃ a ∈ walk.seen, Reaches successors a x := by
  obtain ⟨result, returned, sound, stopped⟩ :=
    Loop.whileLoop_within (Walk.expand successors) (Walk.Sound successors walk.seen)
      (fun _ _ => expand_sound) (Walk.remaining carrier)
      (fun _ _ => expand_remaining closed inside) (walk_sound successors walk stacked expanded) enough
  exact ⟨result.seen, by simp only [closeUnder, returned, Option.map_some], seen_iff sound stopped⟩

end

theorem closeUnder_seeds (closed : ∀ x ∈ carrier, ∀ y ∈ successors x, y ∈ carrier) (seeds : List α)
    (seeds_inside : ∀ x ∈ seeds, x ∈ carrier) (met : Finset α) (met_inside : met ⊆ carrier)
    (met_closed : ∀ x ∈ met, ∀ y ∈ successors x, y ∈ met) {fuel : ℕ} (enough : carrier.card < fuel)
    : ∃ seen, closeUnder successors fuel (seeds.foldl Walk.push ⟨[], met⟩) = some seen ∧
      ∀ x, x ∈ seen ↔ x ∈ met ∨ ∃ a ∈ seeds, Reaches successors a x := by
  let walk := seeds.foldl Walk.push ⟨[], met⟩
  have seen_walk : ∀ x, x ∈ walk.seen ↔ x ∈ seeds ∨ x ∈ met := pushAll_seen seeds ⟨[], met⟩
  have stack_walk : ∀ x, x ∈ walk.stack ↔ x ∈ seeds ∧ x ∉ met := fun x => by
    rw [pushAll_stack]
    simp
  have remaining : walk.remaining carrier < fuel := by
    have pushed := pushAll_remaining carrier seeds ⟨[], met⟩ seeds_inside
    have fewer := Finset.card_le_card (Finset.sdiff_subset (s := carrier) (t := met))
    rw [pushed, Walk.remaining, length_nil, Nat.zero_add]
    exact fewer.trans_lt enough
  obtain ⟨seen, returned, exact_seen⟩ := closeUnder_within successors carrier closed walk
    (fun x member => ((seen_walk x).mp member).elim (seeds_inside x) fun held => met_inside held)
    (fun x member => (seen_walk x).mpr (.inl ((stack_walk x).mp member).1))
    (fun x member unstacked y edge => (seen_walk y).mpr (.inr (by
      have held : x ∈ met := by
        by_contra fresh
        exact unstacked ((stack_walk x).mpr ⟨((seen_walk x).mp member).resolve_right fresh, fresh⟩)
      exact met_closed x held y edge))) remaining
  refine ⟨seen, returned, fun x => ?_⟩
  rw [exact_seen]
  constructor
  · rintro ⟨a, member, path⟩
    rcases (seen_walk a).mp member with seed | held
    · exact .inr ⟨a, seed, path⟩
    · exact .inl (reaches_inside met_closed held path)
  · rintro (held | ⟨a, seed, path⟩)
    · exact ⟨x, (seen_walk x).mpr (.inr held), .refl⟩
    · exact ⟨a, (seen_walk a).mpr (.inl seed), path⟩

def Walk.visit (state : Walk α × List α) : Option (Walk α × List α) :=
  match state.1.stack with
  | [] => none
  | node :: _ => (state.1.expand successors).map fun next => (next, state.2 ++ [node])

def visits (fuel : ℕ) (walk : Walk α) : Option (List α) :=
  (whileLoop (Walk.visit successors) fuel (walk, [])).map Prod.snd

private theorem visit_walk (fuel : ℕ) (walk : Walk α) (found : List α) :
    (whileLoop (Walk.visit successors) fuel (walk, found)).map Prod.fst =
      whileLoop (Walk.expand successors) fuel walk := by
  induction fuel generalizing walk found with
  | zero => rfl
  | succ fuel ih =>
    rw [whileLoop, whileLoop, Walk.visit]
    cases stacked : walk.stack with
    | nil => simp only [Walk.expand, stacked, Option.map_some]
    | cons node later => simp only [Walk.expand, stacked, Option.map_some, ih]

theorem visits_seeds (closed : ∀ x ∈ carrier, ∀ y ∈ successors x, y ∈ carrier) (seeds : List α)
    (inside : ∀ x ∈ seeds, x ∈ carrier) {fuel : ℕ} (enough : carrier.card < fuel) :
    ∃ found, visits successors fuel (seeds.foldl Walk.push ⟨[], ∅⟩) = some found ∧
      ∀ x, x ∈ found ↔ ∃ a ∈ seeds, Reaches successors a x := by
  obtain ⟨seen, returned, met⟩ := closeUnder_seeds successors carrier closed seeds inside ∅
    (Finset.empty_subset _) (fun x none => absurd none (Finset.notMem_empty x)) enough
  rw [closeUnder, ← visit_walk successors fuel _ [], Option.map_map] at returned
  obtain ⟨last, finished, rfl⟩ := Option.map_eq_some_iff.mp returned
  refine ⟨last.2, by rw [visits, finished, Option.map_some], fun x => ?_⟩
  -- what is met is on the stack or listed
  have kept := Loop.whileLoop_keeps (Walk.visit successors)
    (fun state => ∀ x, x ∈ state.1.seen ↔ x ∈ state.1.stack ∨ x ∈ state.2) (by
      rintro ⟨walk, found⟩ next holds turned
      unfold Walk.visit Walk.expand at turned
      cases stacked : walk.stack with
      | nil => simp only [stacked, reduceCtorEq] at turned
      | cons node later =>
        simp only [stacked, Option.map_some, Option.some.injEq] at turned
        subst turned
        intro x
        have before := holds x
        simp only [stacked, mem_cons] at before
        simp only [pushAll_seen, pushAll_stack, mem_append, mem_singleton]
        tauto) (fun x => by
    rw [pushAll_seen, pushAll_stack]
    simp) finished
  obtain ⟨holds, stopped⟩ := kept
  have emptied : last.1.stack = [] := by
    unfold Walk.visit Walk.expand at stopped
    cases stacked : last.1.stack with
    | nil => rfl
    | cons node later => simp only [stacked, Option.map_some, reduceCtorEq] at stopped
  have same := holds x
  rw [emptied] at same
  have reached := met x
  simp only [Finset.notMem_empty, false_or] at reached
  rw [← reached]
  simpa using same.symm

end SolidChecker.Foundation.Closure
