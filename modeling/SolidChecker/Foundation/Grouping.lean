/- digest: Runs of equal keys in a sorted list are the keys' rows, in order. -/

import Mathlib.Data.List.Forall2
import Mathlib.Data.List.SplitBy
import Mathlib.Data.List.Sort
import Mathlib.Data.List.Perm.Basic

namespace SolidChecker.Foundation.Grouping

open List

variable {α κ : Type*} [LinearOrder κ] (key : α → κ) (rows : List α)

def sortByKey : List α := rows.mergeSort fun a b => decide (key a ≤ key b)

theorem sortByKey_perm : (sortByKey key rows).Perm rows :=
  mergeSort_perm rows _

theorem sortByKey_eq_nil {rows : List α} : sortByKey key rows = [] ↔ rows = [] := by
  rw [← length_eq_zero_iff, (sortByKey_perm key rows).length_eq, length_eq_zero_iff]

theorem sortByKey_sorted : (sortByKey key rows).Pairwise fun a b => key a ≤ key b := by
  have sorted : (sortByKey key rows).Pairwise fun a b => decide (key a ≤ key b) := by
    refine pairwise_mergeSort (fun a b c first second => ?_) (fun a b => ?_) rows
    · simp only [decide_eq_true_eq] at first second ⊢
      exact first.trans second
    · simp only [Bool.or_eq_true, decide_eq_true_eq]
      exact le_total (key a) (key b)
  exact sorted.imp fun below => of_decide_eq_true below

theorem sortByKey_filter (k : κ) : (sortByKey key rows).filter (fun row => key row = k) =
      rows.filter fun row => key row = k := by
  have level : (rows.filter fun row => key row = k).Pairwise fun a b => decide (key a ≤ key b) := by
    refine pairwise_of_forall_mem_list fun a in_a b in_b => ?_
    have first := of_decide_eq_true (mem_filter.mp in_a).2
    have second := of_decide_eq_true (mem_filter.mp in_b).2
    exact decide_eq_true (by rw [first, second])
  have trans : ∀ a b c, decide (key a ≤ key b) → decide (key b ≤ key c) →
      decide (key a ≤ key c) := by
    intro a b c first second
    exact decide_eq_true ((of_decide_eq_true first).trans (of_decide_eq_true second))
  have total : ∀ a b, (decide (key a ≤ key b) || decide (key b ≤ key a)) := by
    intro a b
    rw [Bool.or_eq_true, decide_eq_true_eq, decide_eq_true_eq]
    exact le_total (key a) (key b)
  have kept : (rows.filter fun row => key row = k).Sublist (sortByKey key rows) :=
    sublist_mergeSort trans total level filter_sublist
  have inside := kept.filter fun row => key row = k
  rw [filter_filter] at inside
  simp only [Bool.and_self] at inside
  refine (inside.eq_of_length ?_).symm
  exact ((sortByKey_perm key rows).filter _).length_eq.symm

theorem sortByKey_strict {rows : List α} (distinct : (rows.map key).Nodup) :
    (sortByKey key rows).Pairwise fun a b => key a < key b := by
  have apart : (sortByKey key rows).Pairwise fun a b => key a ≠ key b :=
    pairwise_map.mp ((((sortByKey_perm key rows).map key).nodup_iff).mpr distinct)
  have both := (sortByKey_sorted key rows).and apart
  exact both.imp fun pair => lt_of_le_of_ne pair.1 pair.2

theorem takeWhile_le {rows : List α} (sorted : rows.Pairwise fun a b => key a ≤ key b) (bound : κ) :
    (rows.takeWhile fun row => key row ≤ bound) = rows.filter fun row => key row ≤ bound := by
  induction rows with
  | nil => rfl
  | cons row rows ih =>
    obtain ⟨before, rest⟩ := pairwise_cons.mp sorted
    by_cases near : key row ≤ bound
    · simp [near, ih rest]
    · have far : ∀ other ∈ rows, bound < key other := fun other member =>
        (not_le.mp near).trans_le (before other member)
      simpa [near] using far

variable {key} in
theorem eq_of_strict {rows sorted : List α} (perm : rows.Perm sorted)
    (weak : rows.Pairwise fun a b => key a ≤ key b)
    (strict : sorted.Pairwise fun a b => key a < key b) : rows = sorted := by
  have apart : ∀ a ∈ sorted, ∀ b ∈ sorted, key a = key b → a = b := by
    have symmetric : Std.Symm fun a b => key a = key b → a = b :=
      ⟨fun a b apart equal => (apart equal.symm).symm⟩
    have pairs : sorted.Pairwise fun a b => key a = key b → a = b :=
      strict.imp fun below equal => absurd equal (ne_of_lt below)
    exact fun a in_a b in_b => pairs.forall_of_forall (fun _ _ _ => rfl) in_a in_b
  refine perm.eq_of_pairwise (fun a b in_a in_b below above => ?_) weak (strict.imp le_of_lt)
  exact apart a (perm.mem_iff.mp in_a) b in_b (le_antisymm below above)

def runs : List (List α) := rows.splitBy fun a b => decide (key a = key b)

private theorem runs_facts : rows = (runs key rows).flatten ∧ [] ∉ runs key rows ∧
      (∀ run ∈ runs key rows, run.IsChain fun a b => decide (key a = key b)) ∧
      (runs key rows).IsChain fun g h =>
        ∃ g_ne h_ne, decide (key (g.getLast g_ne) = key (h.head h_ne)) = false :=
  splitBy_eq_iff.mp rfl

theorem runs_flatten : (runs key rows).flatten = rows :=
  (runs_facts key rows).1.symm

variable {rows run : List α}

theorem run_nonempty (member : run ∈ runs key rows) : run ≠ [] :=
  fun empty => (runs_facts key rows).2.1 (empty ▸ member)

omit [LinearOrder κ] in
private theorem same_key [DecidableEq κ] {run : List α}
    (chain : run.IsChain fun a b => decide (key a = key b)) :
    ∀ a ∈ run, ∀ b ∈ run, key a = key b := by
  have trans : IsTrans α fun a b => key a = key b := ⟨fun _ _ _ first second => first.trans second⟩
  have symmetric : Std.Symm fun a b => key a = key b := ⟨fun _ _ equal => equal.symm⟩
  have pairs : run.Pairwise fun a b => key a = key b :=
    isChain_iff_pairwise.mp (chain.imp fun _ _ equal => of_decide_eq_true equal)
  intro a in_a b in_b
  exact List.Pairwise.forall_of_forall (R := fun a b => key a = key b) (fun _ _ => rfl) pairs
    in_a in_b

private theorem runs_strict {rows : List α} (sorted : rows.Pairwise fun a b => key a ≤ key b) :
    (runs key rows).Pairwise fun g h => ∀ a ∈ g, ∀ b ∈ h, key a < key b := by
  obtain ⟨joined, nonempty, chains, breaks⟩ := runs_facts key rows
  have weak := (pairwise_flatten.mp (joined ▸ sorted)).2
  clear sorted joined
  generalize runs key rows = groups at *
  induction groups with
  | nil => exact .nil
  | cons g groups ih =>
    have tail_nonempty : [] ∉ groups := fun member => nonempty (mem_cons_of_mem _ member)
    have tail := ih tail_nonempty (fun m member => chains m (mem_cons_of_mem _ member))
      breaks.tail (pairwise_cons.mp weak).2
    refine pairwise_cons.mpr ⟨?_, tail⟩
    cases groups with
    | nil => exact fun h member => nomatch member
    | cons first later =>
      have step : ∀ a ∈ g, ∀ b ∈ first, key a < key b := by
        intro a in_a b in_b
        obtain ⟨g_ne, first_ne, differ⟩ := (isChain_cons_cons.mp breaks).1
        have left := same_key key (chains g mem_cons_self) a in_a _ (getLast_mem g_ne)
        have right := same_key key
          (chains first (mem_cons_of_mem _ mem_cons_self)) b in_b _
          (head_mem first_ne)
        have below := (pairwise_cons.mp weak).1 first mem_cons_self a in_a b in_b
        refine lt_of_le_of_ne below fun equal => ?_
        rw [left, right] at equal
        exact absurd equal (of_decide_eq_false differ)
      intro h member a in_a b in_b
      rcases mem_cons.mp member with rfl | later_member
      · exact step a in_a b in_b
      · obtain ⟨c, in_c⟩ : ∃ c, c ∈ first := by
          refine exists_mem_of_ne_nil first fun empty => tail_nonempty ?_
          rw [empty]
          exact mem_cons_self
        exact (step a in_a c in_c).trans ((pairwise_cons.mp tail).1 h later_member c in_c b in_b)

private theorem run_eq_filter (sorted : rows.Pairwise fun a b => key a ≤ key b)
    (member : run ∈ runs key rows) {a : α} (inside : a ∈ run) :
    run = rows.filter fun b => key b = key a := by
  have strict := runs_strict key sorted
  obtain ⟨joined, -, chains, -⟩ := runs_facts key rows
  rw [joined]
  clear joined sorted
  generalize runs key rows = groups at *
  have whole : ∀ g ∈ groups, a ∈ g → g.filter (fun b => key b = key a) = g := by
    intro g in_g in_a
    refine filter_eq_self.mpr fun b in_b => decide_eq_true ?_
    exact same_key key (chains g in_g) b in_b a in_a
  clear chains
  induction groups with
  | nil => exact nomatch member
  | cons g groups ih =>
    rw [flatten_cons, filter_append]
    obtain ⟨head, tail⟩ := pairwise_cons.mp strict
    rcases mem_cons.mp member with rfl | later
    · have rest : groups.flatten.filter (fun b => key b = key a) = [] := by
        refine filter_eq_nil_iff.mpr fun b in_b => ?_
        obtain ⟨h, in_h, b_in_h⟩ := mem_flatten.mp in_b
        have above := head h in_h a inside b b_in_h
        simp only [decide_eq_true_eq]
        exact ne_of_gt above
      rw [whole run mem_cons_self inside, rest, append_nil]
    · have front : g.filter (fun b => key b = key a) = [] := by
        refine filter_eq_nil_iff.mpr fun b in_b => ?_
        have above := head run later b in_b a inside
        simp only [decide_eq_true_eq]
        exact ne_of_lt above
      rw [front, nil_append]
      exact ih later tail fun h in_h => whole h (mem_cons_of_mem _ in_h)

theorem mem_keyed_runs {rows : List α} (sorted : rows.Pairwise fun a b => key a ≤ key b)
    (keyed : κ × List α) :
    keyed ∈ (runs key rows).filterMap (fun run => run.head?.map fun row => (key row, run)) ↔
      keyed.2 ≠ [] ∧ keyed.2 = rows.filter fun row => key row = keyed.1 := by
  rw [mem_filterMap]
  constructor
  · rintro ⟨run, member, found⟩
    obtain ⟨row, first, rfl⟩ := Option.map_eq_some_iff.mp found
    exact ⟨run_nonempty key member, run_eq_filter key sorted member (mem_of_mem_head? first)⟩
  · rintro ⟨filled, whole⟩
    obtain ⟨head, rest, shape⟩ := exists_cons_of_ne_nil filled
    have first : head ∈ keyed.2 := shape ▸ mem_cons_self
    obtain ⟨present, here⟩ := mem_filter.mp (whole ▸ first)
    rw [← runs_flatten key rows] at present
    obtain ⟨run, member, within⟩ := mem_flatten.mp present
    have same := run_eq_filter key sorted member within
    rw [of_decide_eq_true here, ← whole] at same
    refine ⟨run, member, ?_⟩
    rw [same, shape, head?_cons, Option.map_some, of_decide_eq_true here, ← shape]

theorem keyed_runs_strict {rows : List α} (sorted : rows.Pairwise fun a b => key a ≤ key b) :
    ((runs key rows).filterMap fun run => run.head?.map fun row => (key row, run)).Pairwise
      fun first second => first.1 < second.1 := by
  rw [pairwise_filterMap]
  refine (runs_strict key sorted).imp fun {run later} below first found second laterFound => ?_
  obtain ⟨row, head, rfl⟩ := Option.map_eq_some_iff.mp found
  obtain ⟨other, otherHead, rfl⟩ := Option.map_eq_some_iff.mp laterFound
  exact below row (mem_of_mem_head? head) other (mem_of_mem_head? otherHead)

omit [LinearOrder κ] in
theorem filterMap_runs {β : Type*} (make : κ × List α → β) (groups : List (List α)) :
    groups.filterMap (fun run => run.head?.map fun row => make (key row, run)) =
      (groups.filterMap fun run => run.head?.map fun row => (key row, run)).map make := by
  simp only [map_filterMap, Option.map_map, Function.comp_def]

theorem sorted_of_runs {rows : List α}
    (rising : ((runs key rows).filterMap fun run => run.head?.map fun row => (key row, run)).Pairwise
      fun first second => first.1 < second.1) : rows.Pairwise fun a b => key a ≤ key b := by
  obtain ⟨joined, nonempty, chains, -⟩ := runs_facts key rows
  rw [joined]
  have named : ∀ run ∈ runs key rows, ∃ row ∈ run, run.head? = some row := by
    intro run member
    obtain ⟨row, rest, rfl⟩ := exists_cons_of_ne_nil (run_nonempty key member)
    exact ⟨row, mem_cons_self, rfl⟩
  have level := fun run member => same_key key (chains run member)
  clear joined nonempty chains
  generalize runs key rows = groups at *
  induction groups with
  | nil => exact .nil
  | cons group groups ih =>
    obtain ⟨head, inside, first⟩ := named group mem_cons_self
    rw [filterMap_cons, first, Option.map_some] at rising
    obtain ⟨above, rest⟩ := pairwise_cons.mp rising
    rw [flatten_cons, pairwise_append]
    refine ⟨?_, ?_, fun a in_a b in_b => ?_⟩
    · exact pairwise_of_forall_mem_list fun a in_a b in_b =>
        (level group mem_cons_self a in_a b in_b).le
    · exact ih rest (fun run member => named run (mem_cons_of_mem group member))
        fun run member => level run (mem_cons_of_mem group member)
    · obtain ⟨later, member, within⟩ := mem_flatten.mp in_b
      obtain ⟨front, frontInside, laterFirst⟩ := named later (mem_cons_of_mem group member)
      have below := above (key front, later) (mem_filterMap.mpr
        ⟨later, member, by rw [laterFirst]; rfl⟩)
      rw [level group mem_cons_self a in_a head inside,
        level later (mem_cons_of_mem group member) b within front frontInside]
      exact le_of_lt below

omit [LinearOrder κ] in
theorem filter_flatMap [DecidableEq κ] {β : Type*} {rows : β → List α} {name : β → κ}
    {blocks : List β} (distinct : (blocks.map name).Nodup)
    (within : ∀ block ∈ blocks, ∀ row ∈ rows block, key row = name block) {block : β}
    (member : block ∈ blocks) :
    (blocks.flatMap rows).filter (fun row => key row = name block) = rows block := by
  induction blocks with
  | nil => exact nomatch member
  | cons first later ih =>
    obtain ⟨apart, rest⟩ := nodup_cons.mp distinct
    rw [flatMap_cons, filter_append]
    rcases mem_cons.mp member with rfl | further
    · have all : (rows block).filter (fun row => key row = name block) = rows block :=
        filter_eq_self.mpr fun row here =>
          decide_eq_true (within block mem_cons_self row here)
      have none : (later.flatMap rows).filter (fun row => key row = name block) = [] := by
        refine filter_eq_nil_iff.mpr fun row here => ?_
        obtain ⟨other, inside, there⟩ := mem_flatMap.mp here
        rw [within other (mem_cons_of_mem _ inside) row there, decide_eq_true_eq]
        exact fun same => apart (mem_map.mpr ⟨other, inside, same⟩)
      rw [all, none, append_nil]
    · have none : (rows first).filter (fun row => key row = name block) = [] := by
        refine filter_eq_nil_iff.mpr fun row here => ?_
        rw [within first mem_cons_self row here, decide_eq_true_eq]
        exact fun same => apart (mem_map.mpr ⟨block, further, same.symm⟩)
      rw [none, nil_append]
      exact ih rest (fun other inside => within other (mem_cons_of_mem _ inside)) further

theorem mapM_ok_iff {X Y δ : Type} {make : X → Except δ Y} {items : List X} {results : List Y} :
    items.mapM make = .ok results ↔
      Forall₂ (fun item result => make item = .ok result) items results := by
  induction items generalizing results with
  | nil =>
    rw [mapM_nil, forall₂_nil_left_iff]
    exact ⟨fun same => (Except.ok.inj same).symm, fun none => none ▸ rfl⟩
  | cons item items ih =>
    rw [mapM_cons]
    cases made : make item with
    | error error =>
      refine iff_of_false nofun fun all => ?_
      obtain ⟨result, rest, first, -, -⟩ := forall₂_cons_left_iff.mp all
      exact nomatch made.symm.trans first
    | ok result =>
      cases later : items.mapM make with
      | error error =>
        refine iff_of_false nofun fun all => ?_
        obtain ⟨_, rest, -, tail, -⟩ := forall₂_cons_left_iff.mp all
        exact nomatch later.symm.trans (ih.mpr tail)
      | ok rest =>
        constructor
        · intro same
          cases same
          exact .cons made (ih.mp later)
        · intro all
          obtain ⟨first, others, head, tail, rfl⟩ := forall₂_cons_left_iff.mp all
          cases made.symm.trans head
          cases later.symm.trans (ih.mpr tail)
          rfl

theorem mapM_map {X Y Z δ : Type} {make : X → Except δ Y} {part : Y → Z} {whole : X → Z}
    (each : ∀ item result, make item = .ok result → part result = whole item) {items : List X}
    {results : List Y} (made : items.mapM make = .ok results) :
    results.map part = items.map whole := by
  induction mapM_ok_iff.mp made with
  | nil => rfl
  | cons first rest ih => rw [map_cons, map_cons, each _ _ first, ih (mapM_ok_iff.mpr rest)]

end SolidChecker.Foundation.Grouping
