/- source: solid-facts/src/ast/span_index.rs; core.rs; ast/types.rs -/

import Mathlib.Algebra.Group.Nat.Defs
import Mathlib.Data.List.GetD
import Mathlib.Data.List.TakeWhile
import Mathlib.Data.Prod.Lex
import SolidChecker.Foundation.Grouping

namespace SolidChecker.Ast.SpanIndex

open List

open Foundation.Grouping (sortByKey sortByKey_perm sortByKey_sorted takeWhile_le)

structure Span where
  start : ℕ
  stop : ℕ
deriving DecidableEq, Repr

def Span.contains (self other : Span) : Bool :=
  decide (self.start ≤ other.start) && decide (self.stop ≥ other.stop)

abbrev Entry := Span × ℕ

/-- The entries by start, end and payload, each with the nearest earlier one that ends later. -/
structure SpanTable where
  starts : List ℕ
  ends : List ℕ
  payloads : List ℕ
  previousLonger : List ℕ

def asU32 (index : ℕ) : ℕ := index % 2 ^ 32

def NONE : ℕ := 2 ^ 32 - 1

/-- The chain, its top first, without the entries on top that end by `stop`. -/
def popShorter (ends : List ℕ) (stop : ℕ) : List ℕ → List ℕ
  | [] => []
  | top :: chain => if ends.getD top 0 ≤ stop then popShorter ends stop chain else top :: chain

/-- One entry of the sorted list; its index is the number of entries before it. -/
def push (state : SpanTable × List ℕ) (entry : Entry) : SpanTable × List ℕ :=
  let (table, chain) := state
  let chain := popShorter table.ends entry.1.stop chain
  (⟨table.starts ++ [entry.1.start], table.ends ++ [entry.1.stop], table.payloads ++ [entry.2],
    table.previousLonger ++ [chain.head?.getD NONE]⟩, asU32 table.ends.length :: chain)

variable (entries : List Entry)

def sorted : List Entry :=
  sortByKey (fun entry => toLex (entry.1.start, toLex (entry.1.stop, entry.2))) entries

def filled : SpanTable × List ℕ := entries.foldl push (⟨[], [], [], []⟩, [])

def SpanTable.build : SpanTable := (filled (sorted entries)).1

namespace SpanTable

variable {σ : Type*} (table : SpanTable) (span : Span)

/-- The walk back over the entries before a position that end at `stop` or after; `visit` says
whether to go on to the next. Each round moves the position down. -/
def visitEndingAtOrAfter (stop : ℕ) (visit : σ → ℕ → σ × Bool) : ℕ → ℕ → σ → σ
  | 0, _, state | _, 0, state => state
  | fuel + 1, position + 1, state =>
    if table.ends.getD position 0 ≥ stop then
      let (state, found) := visit state position
      if found then state else visitEndingAtOrAfter stop visit fuel position state
    else
      let longer := table.previousLonger.getD position NONE
      if longer = NONE then state else visitEndingAtOrAfter stop visit fuel (longer + 1) state

/-- Where the sorted starts pass the span's, as the binary search finds it. -/
def bound : ℕ := (table.starts.takeWhile fun start => decide (start ≤ span.start)).length

def query (visit : σ → ℕ → σ × Bool) (state : σ) : σ :=
  table.visitEndingAtOrAfter span.stop visit (table.bound span) (table.bound span) state

def containing : List ℕ :=
  sortByKey id (table.query span
    (fun out index => (out ++ [table.payloads.getD index 0], false)) [])

def better {K : Type*} [LinearOrder K] (key : ℕ → K) (best : Option (K ×ₗ ℕ)) (payload : ℕ) :
    Option (K ×ₗ ℕ) :=
  let candidate := toLex (key payload, payload)
  some (best.elim candidate fun best => if candidate < best then candidate else best)

def containingLeastBy {K : Type*} [LinearOrder K] (key : ℕ → K) : Option ℕ :=
  (table.query span (fun best index => (better key best (table.payloads.getD index 0), false))
    none).map fun best => (ofLex best).2

def containsAny : Bool := table.query span (fun _ _ => (true, true)) false

end SpanTable

section

variable {ends : List ℕ} {chain : List ℕ}

/-- The entries before `index` and after the top of the chain end by `stop`. -/
def After (ends : List ℕ) (top : Option ℕ) (index stop : ℕ) : Prop :=
  ∀ i < index, (∀ t ∈ top, t < i) → ends.getD i 0 ≤ stop

def Chained (ends : List ℕ) : List ℕ → Prop
  | [] => True
  | top :: chain => top < ends.length ∧ After ends chain.head? top (ends.getD top 0) ∧
    Chained ends chain

private theorem popShorter_spec {index stop : ℕ} (chained : Chained ends chain)
    (after : After ends chain.head? index stop) : Chained ends (popShorter ends stop chain) ∧
      After ends (popShorter ends stop chain).head? index stop := by
  induction chain with
  | nil => exact ⟨chained, after⟩
  | cons top chain ih =>
    rw [popShorter]
    split
    · rename_i short
      refine ih chained.2.2 fun i before above => ?_
      rcases lt_trichotomy i top with below | rfl | beyond
      · exact (chained.2.1 i below above).trans short
      · exact short
      · exact after i before (by simpa using beyond)
    · exact ⟨chained, after⟩

private theorem After.append {top : Option ℕ} {index stop : ℕ} (after : After ends top index stop)
    (inside : index ≤ ends.length) (more : List ℕ) : After (ends ++ more) top index stop := by
  intro i before above
  rw [getD_append _ _ _ _ (by omega)]
  exact after i before above

private theorem Chained.append (chained : Chained ends chain) (more : List ℕ) :
    Chained (ends ++ more) chain := by
  induction chain with
  | nil => trivial
  | cons top chain ih =>
    obtain ⟨inside, after, rest⟩ := chained
    refine ⟨by rw [length_append]; omega, ?_, ih rest⟩
    rw [getD_append _ _ _ _ inside]
    exact after.append inside.le more

private theorem Chained.head_lt (chained : Chained ends chain) : ∀ top ∈ chain.head?, top < ends.length := by
  intro top first
  cases chain with
  | nil => exact nomatch first
  | cons head chain =>
    cases first
    exact chained.1

end

/-- Past the entry that is kept for one, what ends later than it comes no sooner. -/
structure Skips (table : SpanTable) : Prop where
  same : table.previousLonger.length = table.ends.length
  longer : ∀ i < table.ends.length, ∃ top : Option ℕ,
    table.previousLonger.getD i NONE = top.getD NONE ∧ (∀ t ∈ top, t < i ∧ t ≠ NONE) ∧
    After table.ends top i (table.ends.getD i 0)

private theorem filled_concat (entry : Entry) :
    filled (entries ++ [entry]) = push (filled entries) entry := by
  rw [filled, foldl_append]
  rfl

private theorem filled_columns :
    (filled entries).1.starts = entries.map (·.1.start) ∧
    (filled entries).1.ends = entries.map (·.1.stop) ∧
    (filled entries).1.payloads = entries.map (·.2) := by
  induction entries using List.reverseRecOn with
  | nil => exact ⟨rfl, rfl, rfl⟩
  | append_singleton entries entry ih =>
    obtain ⟨starts, ends, payloads⟩ := ih
    simp [filled_concat, push, starts, ends, payloads]

private theorem filled_skips (small : entries.length ≤ 2 ^ 32) :
    Skips (filled entries).1 ∧ Chained (filled entries).1.ends (filled entries).2 ∧
    ∀ stop, After (filled entries).1.ends (filled entries).2.head? entries.length stop := by
  induction entries using List.reverseRecOn with
  | nil => exact ⟨⟨rfl, nofun⟩, trivial, fun _ _ before => nomatch before⟩
  | append_singleton entries entry ih =>
    rw [length_append, length_singleton] at small
    obtain ⟨skips, chained, after⟩ := ih (by omega)
    have size : (filled entries).1.ends.length = entries.length := by
      rw [(filled_columns entries).2.1, length_map]
    rw [filled_concat]
    generalize filled entries = state at skips chained after size ⊢
    obtain ⟨table, chain⟩ := state
    have index : asU32 table.ends.length = entries.length := by
      rw [size]
      exact Nat.mod_eq_of_lt (by omega)
    obtain ⟨chained, after⟩ := popShorter_spec chained (after entry.1.stop)
    simp only at size
    simp only [push, index]
    generalize popShorter table.ends entry.1.stop chain = chain at chained after ⊢
    have here : (table.ends ++ [entry.1.stop]).getD entries.length 0 = entry.1.stop := by
      rw [← size, getD_append_right _ _ _ _ le_rfl, Nat.sub_self]
      rfl
    refine ⟨⟨by simp [skips.same], fun i inside => ?_⟩, ⟨?_, ?_, chained.append _⟩, ?_⟩
    · rw [length_append, length_singleton] at inside
      rcases Nat.lt_succ_iff_lt_or_eq.mp inside with before | rfl
      · obtain ⟨top, kept, lower, longer⟩ := skips.longer i before
        refine ⟨top, ?_, lower, ?_⟩
        · rw [getD_append _ _ _ _ (skips.same ▸ before), kept]
        · rw [getD_append _ _ _ _ before]
          exact longer.append before.le _
      · refine ⟨chain.head?, ?_, fun top first => ?_, ?_⟩
        · rw [← skips.same, getD_append_right _ _ _ _ le_rfl, Nat.sub_self]
          rfl
        · have lower := chained.head_lt top first
          refine ⟨lower, ?_⟩
          rw [size] at lower
          rw [NONE]
          omega
        · rw [size, here]
          exact after.append size.ge _
    · rw [length_append, length_singleton]
      omega
    · rw [here]
      exact after.append size.ge _
    · intro stop i before above
      have beyond := above _ rfl
      rw [length_append, length_singleton] at before
      omega

section

variable {σ : Type*} (table : SpanTable) (stop : ℕ) (visit : σ → ℕ → σ × Bool)

/-- The entries before `position` that end at `stop` or after, the last first. -/
def endingAtOrAfter (position : ℕ) : List ℕ :=
  ((range position).filter fun i => decide (stop ≤ table.ends.getD i 0)).reverse

def visitAll (state : σ) : List ℕ → σ
  | [] => state
  | index :: rest => if (visit state index).2 then (visit state index).1
    else visitAll (visit state index).1 rest

private theorem endingAtOrAfter_succ (position : ℕ) : endingAtOrAfter table stop (position + 1) =
    (if stop ≤ table.ends.getD position 0 then [position] else []) ++
      endingAtOrAfter table stop position := by
  rw [endingAtOrAfter, range_succ, filter_append, reverse_append]
  congr 1
  by_cases late : stop ≤ table.ends.getD position 0
  · rw [if_pos late, filter_cons, if_pos (decide_eq_true late)]
    rfl
  · rw [if_neg late, filter_cons, if_neg (by simpa using late)]
    rfl

private theorem endingAtOrAfter_skip {low high : ℕ} (below : low ≤ high)
    (early : ∀ i, low ≤ i → i < high → table.ends.getD i 0 < stop) :
    endingAtOrAfter table stop high = endingAtOrAfter table stop low := by
  induction high, below using Nat.le_induction with
  | base => rfl
  | succ high above ih =>
    have last := early high above (by omega)
    rw [endingAtOrAfter_succ, if_neg (by omega), nil_append]
    exact ih fun i low_i i_high => early i low_i (by omega)

private theorem visitEndingAtOrAfter_eq (skips : Skips table) (fuel position : ℕ) (enough : position ≤ fuel)
    (inside : position ≤ table.ends.length) (state : σ) :
    table.visitEndingAtOrAfter stop visit fuel position state =
      visitAll visit state (endingAtOrAfter table stop position) := by
  induction fuel generalizing position state with
  | zero =>
    rw [Nat.le_zero.mp enough]
    rfl
  | succ fuel ih =>
    cases position with
    | zero => rfl
    | succ position =>
      rw [SpanTable.visitEndingAtOrAfter, endingAtOrAfter_succ]
      by_cases late : stop ≤ table.ends.getD position 0
      · rw [if_pos late, if_pos late, singleton_append, visitAll]
        simp only [ih position (by omega) (by omega)]
      · rw [if_neg late, if_neg late, nil_append]
        obtain ⟨top, kept, lower, after⟩ := skips.longer position inside
        simp only [kept]
        cases top with
        | none =>
          have none_left := endingAtOrAfter_skip table stop (Nat.zero_le position)
            fun i _ before => (after i before nofun).trans_lt (by omega)
          rw [Option.getD_none, if_pos rfl, none_left]
          rfl
        | some top =>
          have lower := lower top rfl
          have early : ∀ i, top + 1 ≤ i → i < position → table.ends.getD i 0 < stop := by
            intro i above before
            have short := after i before (by rintro t ⟨⟩; exact above)
            omega
          have skipped := endingAtOrAfter_skip table stop (by omega) early
          rw [Option.getD_some, if_neg lower.2, ih (top + 1) (by omega) (by omega), skipped]

private theorem visitAll_map (payload : ℕ → ℕ) (state : σ) (indexes : List ℕ) :
    visitAll (fun state index => visit state (payload index)) state indexes =
      visitAll visit state (indexes.map payload) := by
  induction indexes generalizing state with
  | nil => rfl
  | cons index rest ih => simp only [visitAll, map_cons, ih]

private theorem visitAll_foldl (step : σ → ℕ → σ) (state : σ) (payloads : List ℕ) :
    visitAll (fun state payload => (step state payload, false)) state payloads =
      payloads.foldl step state := by
  induction payloads generalizing state with
  | nil => rfl
  | cons payload rest ih => exact ih (step state payload)

end

def payloadsContaining (span : Span) : List ℕ :=
  (entries.filter fun entry => entry.1.contains span).map Prod.snd

section

variable (entries : List Entry) (span : Span)

private theorem payloadsContaining_sorted :
    (payloadsContaining (sorted entries) span).Perm (payloadsContaining entries span) :=
  ((sortByKey_perm _ entries).filter _).map _

private theorem sorted_starts : (sorted entries).Pairwise fun a b => a.1.start ≤ b.1.start := by
  refine (sortByKey_sorted _ entries).imp fun {a b} below => ?_
  rcases Prod.Lex.toLex_le_toLex.mp below with strict | ⟨equal, -⟩
  · exact strict.le
  · exact equal.le

private theorem bound_eq : (SpanTable.build entries).bound span =
    ((sorted entries).takeWhile fun entry => entry.1.start ≤ span.start).length := by
  rw [SpanTable.bound, SpanTable.build, (filled_columns _).1, takeWhile_map, length_map]
  rfl

private theorem payloadsContaining_bound : payloadsContaining (sorted entries) span =
    (((sorted entries).take ((SpanTable.build entries).bound span)).filter
      fun entry => span.stop ≤ entry.1.stop).map Prod.snd := by
  rw [bound_eq, ← prefix_iff_eq_take.mp ( takeWhile_prefix _),
    takeWhile_le _ (sorted_starts entries), filter_filter, payloadsContaining]
  congr 2
  funext entry
  rw [Span.contains, Bool.and_comm]

private theorem endingAtOrAfter_payloads (stop position : ℕ) (inside : position ≤ entries.length) :
    (endingAtOrAfter (filled entries).1 stop position).map
      (fun i => (filled entries).1.payloads.getD i 0) =
    (((entries.take position).filter fun entry => stop ≤ entry.1.stop).map Prod.snd).reverse := by
  obtain ⟨-, ends, payloads⟩ := filled_columns entries
  induction position with
  | zero => rfl
  | succ position ih =>
    have here := getElem?_eq_getElem (Nat.lt_of_succ_le inside)
    generalize entries[position] = entry at here
    rw [endingAtOrAfter_succ, map_append, ih (Nat.le_of_succ_le inside), take_add_one, here,
      Option.toList_some, filter_append, map_append, reverse_append]
    congr 1
    by_cases late : stop ≤ entry.1.stop
    · simp [ends, payloads, here, late]
    · simp [ends, here, late]

variable {entries} (small : entries.length ≤ 2 ^ 32)

include small

private theorem query_visits {σ : Type*} (visit : σ → ℕ → σ × Bool) (state : σ) :
    (SpanTable.build entries).query span
      (fun state index => visit state ((SpanTable.build entries).payloads.getD index 0)) state =
    visitAll visit state (payloadsContaining (sorted entries) span).reverse := by
  have skips : Skips (.build entries) :=
    (filled_skips _ ((sortByKey_perm _ entries).length_eq.trans_le small)).1
  have ends : (SpanTable.build entries).ends.length = (sorted entries).length := by
    rw [SpanTable.build, (filled_columns _).2.1, length_map]
  have inside : (SpanTable.build entries).bound span ≤ (sorted entries).length := by
    rw [bound_eq]
    exact (takeWhile_sublist _).length_le
  rw [SpanTable.query, visitEndingAtOrAfter_eq _ _ _ skips _ _ le_rfl (ends ▸ inside),
    payloadsContaining_bound, ← endingAtOrAfter_payloads _ _ _ inside, visitAll_map]
  rfl

private theorem containing_eq : (SpanTable.build entries).containing span =
    sortByKey id (payloadsContaining entries span) := by
  have out := query_visits span small (fun out payload => (out ++ [payload], false)) []
  rw [visitAll_foldl, foldl_append_eq_append, nil_append, ← flatMap_def, flatMap_singleton'] at out
  rw [SpanTable.containing, out]
  refine Perm.eq_of_pairwise (fun a b _ _ ab ba => le_antisymm ab ba)
    (sortByKey_sorted id _) (sortByKey_sorted id _) ?_
  refine (sortByKey_perm id _).trans (Perm.trans ?_ (sortByKey_perm id _).symm)
  exact (reverse_perm _).trans (payloadsContaining_sorted entries span)

private theorem containsAny_iff : (SpanTable.build entries).containsAny span ↔
    ∃ entry ∈ entries, entry.1.contains span := by
  have found := query_visits span small (fun _ _ => (true, true)) false
  rw [SpanTable.containsAny, found]
  have listed : (payloadsContaining (sorted entries) span).reverse = [] ↔
      ¬∃ entry ∈ entries, entry.1.contains span := by
    rw [reverse_eq_nil_iff, ← length_eq_zero_iff,
      (payloadsContaining_sorted entries span).length_eq, length_eq_zero_iff]
    simp [payloadsContaining]
  generalize (payloadsContaining (sorted entries) span).reverse = payloads at listed ⊢
  cases payloads with
  | nil => simpa [visitAll] using listed.mp rfl
  | cons payload rest => simpa [visitAll] using listed

variable {K : Type*} [LinearOrder K] (key : ℕ → K)

def Least (payloads : List ℕ) (payload : ℕ) : Prop :=
  payload ∈ payloads ∧ ∀ other ∈ payloads,
    key payload < key other ∨ key payload = key other ∧ payload ≤ other

omit small in
private theorem foldl_better (payloads : List ℕ) (best : K ×ₗ ℕ) :
    payloads.foldl (SpanTable.better key) (some best) =
      some ((payloads.map fun payload => toLex (key payload, payload)).foldl min best) := by
  induction payloads generalizing best with
  | nil => rfl
  | cons payload rest ih =>
    rw [foldl_cons, SpanTable.better, Option.elim_some, ih, map_cons, foldl_cons, min_comm,
      min_def_lt]

private theorem containingLeastBy_spec : ((SpanTable.build entries).containingLeastBy span key = none →
      payloadsContaining entries span = []) ∧
    ∀ payload, (SpanTable.build entries).containingLeastBy span key = some payload →
      Least key (payloadsContaining entries span) payload := by
  have best := query_visits span small
    (fun best payload => (SpanTable.better key best payload, false)) none
  have perm := (reverse_perm _).trans (payloadsContaining_sorted entries span)
  rw [SpanTable.containingLeastBy, best, visitAll_foldl]
  generalize (payloadsContaining (sorted entries) span).reverse = payloads at perm ⊢
  cases payloads with
  | nil => exact ⟨fun _ => perm.nil_eq.symm, nofun⟩
  | cons first rest =>
    rw [foldl_cons, SpanTable.better, Option.elim_none, foldl_better]
    refine ⟨nofun, ?_⟩
    rintro payload ⟨⟩
    obtain ⟨member, least⟩ := min?_eq_some_iff.mp (show ((first :: rest).map fun payload =>
      toLex (key payload, payload)).min? = some _ from rfl)
    obtain ⟨payload, listed, same⟩ := mem_map.mp member
    rw [← same] at least ⊢
    refine ⟨perm.mem_iff.mp listed, fun other found => ?_⟩
    exact Prod.Lex.toLex_le_toLex.mp (least _ (mem_map_of_mem (perm.mem_iff.mpr found)))

end

structure FunctionFact where
  span : Span
  body : Span
  /-- where each parameter is declared -/
  parameters : List Span
  restParameterNames : List Span
  ordered : body.start ≤ body.stop
  body_within : span.contains body = true
  parameters_within : ∀ parameter ∈ parameters ++ restParameterNames, span.start ≤ parameter.start

namespace FunctionFact

variable (function : FunctionFact) (span : Span)

def parameterListStart : Option ℕ :=
  ((function.parameters ++ function.restParameterNames).map Span.start).min?

/-- Whether the body holds the span, or it lies in the parameter list. -/
def functionOwns : Bool :=
  function.body.contains span || (decide (span.stop ≤ function.body.start) &&
    function.parameterListStart.any fun start => decide (start ≤ span.start))

def length : ℕ := function.span.stop - function.span.start

variable {function span}

private theorem contains_of_owns (owns : function.functionOwns span) : function.span.contains span := by
  have within := function.body_within
  simp only [Span.contains, Bool.and_eq_true, decide_eq_true_eq, ge_iff_le] at within ⊢
  simp only [functionOwns, Bool.or_eq_true, Bool.and_eq_true, decide_eq_true_eq, Span.contains,
    ge_iff_le, Option.any_eq_true] at owns
  rcases owns with ⟨starts, stops⟩ | ⟨before, start, first, starts⟩
  · omega
  · obtain ⟨parameter, listed, rfl⟩ := mem_map.mp (min?_eq_some_iff.mp first).1
    have inside := function.parameters_within parameter listed
    have ordered := function.ordered
    omega

end FunctionFact

section

variable (functions : List FunctionFact) (span : Span)

def spanEntries : List Entry := functions.zipIdx.map fun entry => (entry.1.span, asU32 entry.2)

def ownerKey (index : ℕ) : Bool ×ₗ ℕ :=
  match functions[index]? with
  | some function => toLex (!function.functionOwns span, function.length)
  | none => toLex (true, 0)

def innermostFunctionOwning : Option FunctionFact :=
  (((SpanTable.build (spanEntries functions)).containingLeastBy span
    (ownerKey functions span)).bind (functions[·]?)).filter (·.functionOwns span)

/-- A function that owns the span, the shortest of those that do, the first among equals. -/
structure Innermost (index : ℕ) (function : FunctionFact) : Prop where
  found : functions[index]? = some function
  owns : function.functionOwns span = true
  least : ∀ other owner, functions[other]? = some owner → owner.functionOwns span = true →
    function.length < owner.length ∨ function.length = owner.length ∧ index ≤ other

variable {functions}

private theorem mem_spanEntries (small : functions.length ≤ 2 ^ 32) (index : ℕ) :
    index ∈ payloadsContaining (spanEntries functions) span ↔
      ∃ function, functions[index]? = some function ∧ function.span.contains span := by
  have kept : ∀ entry ∈ functions.zipIdx, asU32 entry.2 = entry.2 := fun entry listed =>
    Nat.mod_eq_of_lt ((snd_lt_of_mem_zipIdx listed).trans_le (by simpa using small))
  simp only [payloadsContaining, spanEntries, mem_map, mem_filter]
  constructor
  · rintro ⟨-, ⟨⟨entry, listed, rfl⟩, contains⟩, rfl⟩
    refine ⟨entry.1, ?_, contains⟩
    rw [kept entry listed]
    exact mem_zipIdx_iff_getElem?.mp listed
  · rintro ⟨function, found, contains⟩
    have listed : (function, index) ∈ functions.zipIdx := mem_zipIdx_iff_getElem?.mpr found
    exact ⟨_, ⟨⟨_, listed, rfl⟩, contains⟩, kept _ listed⟩

private theorem innermostFunctionOwning_spec (small : functions.length ≤ 2 ^ 32) :
    (innermostFunctionOwning functions span = none →
      ∀ function ∈ functions, function.functionOwns span = false) ∧
    ∀ function, innermostFunctionOwning functions span = some function →
      ∃ index, Innermost functions span index function := by
  have size : (spanEntries functions).length ≤ 2 ^ 32 := by simpa [spanEntries] using small
  obtain ⟨nothing, least⟩ := containingLeastBy_spec span size (ownerKey functions span)
  have owners : ∀ index owner, functions[index]? = some owner →
      owner.functionOwns span → index ∈ payloadsContaining (spanEntries functions) span :=
    fun index owner found owns => (mem_spanEntries span small index).mpr
      ⟨owner, found, FunctionFact.contains_of_owns owns⟩
  unfold innermostFunctionOwning
  cases found : (SpanTable.build (spanEntries functions)).containingLeastBy span
      (ownerKey functions span) with
  | none =>
    refine ⟨fun _ function listed => ?_, nofun⟩
    obtain ⟨index, here⟩ := mem_iff_getElem?.mp listed
    refine Bool.eq_false_iff.mpr fun owns => ?_
    have member := owners index function here owns
    rw [nothing found] at member
    exact nomatch member
  | some index =>
    obtain ⟨listed, lowest⟩ := least index found
    obtain ⟨function, here, -⟩ := (mem_spanEntries span small index).mp listed
    rw [Option.bind_some, here, Option.filter_some]
    cases owned : function.functionOwns span with
    | true =>
      refine ⟨nofun, ?_⟩
      rintro answer ⟨⟩
      refine ⟨index, here, owned, fun other owner there owns => ?_⟩
      have first := lowest other (owners other owner there owns)
      simpa [ownerKey, here, there, owns, owned, Prod.Lex.toLex_lt_toLex] using first
    | false =>
      refine ⟨fun _ owner member => ?_, nofun⟩
      obtain ⟨other, there⟩ := mem_iff_getElem?.mp member
      refine Bool.eq_false_iff.mpr fun owns => ?_
      have first := lowest other (owners other owner there owns)
      simp only [ownerKey, here, there, owned, owns, Prod.Lex.toLex_lt_toLex] at first
      exact absurd first (by simp)

end

/-- The index lists the payloads of exactly the entries that contain a span, ascending, and the
least of them by any key; the innermost owner is the shortest of all functions that own the span,
the first among equals. A table counts its entries in 32 bits, so the bounds are its capacity. -/
theorem index_answers_as_scan (entries : List Entry) (small : entries.length ≤ 2 ^ 32)
    (functions : List FunctionFact) (few : functions.length ≤ 2 ^ 32) (span : Span) :
    (SpanTable.build entries).containing span = sortByKey id (payloadsContaining entries span) ∧
    ((SpanTable.build entries).containsAny span = true ↔
      ∃ entry ∈ entries, entry.1.contains span = true) ∧
    (∀ (K : Type) [LinearOrder K] (key : ℕ → K),
      ((SpanTable.build entries).containingLeastBy span key = none →
        payloadsContaining entries span = []) ∧
      ∀ payload, (SpanTable.build entries).containingLeastBy span key = some payload →
        Least key (payloadsContaining entries span) payload) ∧
    (innermostFunctionOwning functions span = none →
      ∀ function ∈ functions, function.functionOwns span = false) ∧
    ∀ function, innermostFunctionOwning functions span = some function →
      ∃ index, Innermost functions span index function :=
  ⟨containing_eq span small, containsAny_iff span small,
    fun _ _ key => containingLeastBy_spec span small key, innermostFunctionOwning_spec span few⟩

def nestedFunctions : List FunctionFact :=
  [⟨⟨0, 30⟩, ⟨5, 30⟩, [], [], by decide, by decide, by decide⟩,
    ⟨⟨6, 20⟩, ⟨12, 20⟩, [⟨8, 9⟩], [], by decide, by decide, by decide⟩,
    ⟨⟨22, 28⟩, ⟨24, 28⟩, [], [], by decide, by decide, by decide⟩]

/-- The parameter lies in the first two functions, and the second one owns it. -/
theorem nested_functions_answer :
    payloadsContaining (spanEntries nestedFunctions) ⟨8, 9⟩ = [0, 1] ∧
    (SpanTable.build (spanEntries nestedFunctions)).containing ⟨8, 9⟩ = [0, 1] ∧
    (SpanTable.build (spanEntries nestedFunctions)).containsAny ⟨8, 9⟩ = true ∧
    ∃ index function, innermostFunctionOwning nestedFunctions ⟨8, 9⟩ = some function ∧
      function.span = ⟨6, 20⟩ ∧ Innermost nestedFunctions ⟨8, 9⟩ index function := by
  have few : nestedFunctions.length ≤ 2 ^ 32 := by decide
  have small : (spanEntries nestedFunctions).length ≤ 2 ^ 32 := by decide
  obtain ⟨listed, any, -, unowned, innermost⟩ :=
    index_answers_as_scan (spanEntries nestedFunctions) small nestedFunctions few ⟨8, 9⟩
  have scanned : payloadsContaining (spanEntries nestedFunctions) ⟨8, 9⟩ = [0, 1] := by decide
  refine ⟨scanned, listed.trans ?_, any.mpr (by decide), ?_⟩
  · rw [scanned]
    exact mergeSort_of_pairwise (by decide)
  · cases found : innermostFunctionOwning nestedFunctions ⟨8, 9⟩ with
    | none =>
      have owned := unowned found _ (mem_cons_of_mem _ mem_cons_self)
      exact absurd owned (by decide)
    | some function =>
      obtain ⟨index, here, owns, first⟩ := innermost function found
      refine ⟨index, function, rfl, ?_, here, owns, first⟩
      have inner := first 1 _ rfl (by decide)
      obtain _ | _ | _ | index := index
      · cases here
        exact absurd inner (by decide)
      · cases here
        rfl
      · cases here
        exact absurd owns (by decide)
      · cases here

end SolidChecker.Ast.SpanIndex
