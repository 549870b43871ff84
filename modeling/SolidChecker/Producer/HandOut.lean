/- source: apps/solid-typefacts/src/session.rs, demands.rs -/

import SolidChecker.Producer.Session

namespace SolidChecker.Producer

open Foundation Foundation.Act List

variable {β H K F A C Y G I : Type}

namespace DemandTransaction

variable (transaction : DemandTransaction K C)

section

variable (old : Option (List (DemandGroup K C)))

private theorem replace_resetOld (group : DemandGroup K C) :
    { transaction with resetOld := old }.replace group =
      { transaction.replace group with resetOld := old } := by
  simp only [replace]
  split
  · split <;> rfl
  · rfl

private theorem remove_resetOld (path : Path) : { transaction with resetOld := old }.remove path =
      { transaction.remove path with resetOld := old } := by
  simp only [remove]
  split
  · split <;> rfl
  · rfl

end

private theorem replace_changedPaths (group : DemandGroup K C) :
    (transaction.replace group).changedPaths = transaction.changedPaths := by
  simp only [replace]
  split
  · split <;> rfl
  · rfl

private theorem remove_changedPaths (path : Path) :
    (transaction.remove path).changedPaths = transaction.changedPaths := by
  simp only [remove]
  split
  · split <;> rfl
  · rfl

private theorem foldl_changedPaths {X : Type}
    (step : DemandTransaction K C → X → DemandTransaction K C)
    (keeps : ∀ transaction x, (step transaction x).changedPaths = transaction.changedPaths)
    (xs : List X) (transaction : DemandTransaction K C) :
    (xs.foldl step transaction).changedPaths = transaction.changedPaths := by
  induction xs generalizing transaction with
  | nil => rfl
  | cons x xs ih => rw [foldl_cons, ih, keeps]

end DemandTransaction

private theorem beginRuns_reset (groups runs : List (DemandGroup K C)) (removed : List Path) :
    beginRuns groups runs removed true =
      { beginRuns [] runs removed true with resetOld := some groups } := by
  let kept (transaction : DemandTransaction K C) := { transaction with resetOld := some groups }
  simp only [beginRuns, if_true]
  refine Eq.trans ?_ (foldl_hom kept fun transaction path =>
    DemandTransaction.remove_resetOld transaction _ path)
  rw [← foldl_hom kept fun transaction group =>
    DemandTransaction.replace_resetOld transaction _ group]

private theorem beginRuns_changedPaths (groups runs : List (DemandGroup K C)) (removed : List Path)
    (reset : Bool) : (beginRuns groups runs removed reset).changedPaths = [] ↔
      runs = [] ∧ removed = [] := by
  simp only [beginRuns]
  rw [DemandTransaction.foldl_changedPaths _ DemandTransaction.remove_changedPaths,
    DemandTransaction.foldl_changedPaths _ DemandTransaction.replace_changedPaths,
    ← length_eq_zero_iff, Finset.length_sort, Finset.card_eq_zero, toFinset_eq_empty_iff,
    append_eq_nil_iff, map_eq_nil_iff, map_eq_nil_iff]

def Request.namesPath (request : Request K C G) : Bool :=
  !request.demands.isEmpty || (request.compactDemands.any fun compact => !compact.groups.isEmpty) ||
    !request.removedDemandPaths.isEmpty

private theorem runs_named {X : Type} {path : X → Path} {rows : List X} :
    (Grouping.runs path rows).filterMap (fun run => run.head?.map fun row => (path row, run)) = [] ↔
      rows = [] := by
  constructor
  · intro none
    by_contra some
    have runs : Grouping.runs path rows ≠ [] := by
      intro empty
      have joined := Grouping.runs_flatten path rows
      rw [empty] at joined
      exact some joined.symm
    obtain ⟨run, member⟩ := exists_mem_of_ne_nil _ runs
    have nothing := filterMap_eq_nil_iff.mp none run member
    rw [Option.map_eq_none_iff, head?_eq_none_iff] at nothing
    exact Grouping.run_nonempty path member nothing
  · rintro rfl
    rfl

private theorem sessionChangedDemandRuns_eq_nil (changes : List (EntityDemand K)) :
    sessionChangedDemandRuns changes = [] ↔ changes = [] := by
  unfold sessionChangedDemandRuns
  dsimp only
  split
  · exact runs_named
  · rw [runs_named]
    exact Grouping.sortByKey_eq_nil _

def Request.resetTransaction (codec : Codec K C) (request : Request K C G) :
    Except String (DemandTransaction K C) :=
  match request.compactDemands with
  | some compact => beginCompact codec [] compact request.removedDemandPaths true
  | none => .ok (beginPlain [] request.demands request.removedDemandPaths true)

variable {codec : Codec K C} {transaction : DemandTransaction K C}

private theorem beginCompact_ok {groups : List (DemandGroup K C)} {compact : CompactDemands C}
    {removed : List Path} {reset : Bool}
    (begun : beginCompact codec groups compact removed reset = .ok transaction) :
    ∃ runs, (runs = [] ↔ compact.groups = []) ∧ transaction = beginRuns groups runs removed reset ∧
      ∀ others, beginCompact codec others compact removed reset =
        .ok (beginRuns others runs removed reset) := by
  unfold beginCompact at begun ⊢
  cases made : compact.groups.mapM (compactRun codec compact.strings) with
  | error text => simp [made, bind, Except.bind] at begun
  | ok runs =>
    simp only [made, bind, Except.bind] at begun ⊢
    cases twice : namedTwice (Grouping.sortByKey DemandGroup.path runs) with
    | some path => simp [twice] at begun
    | none =>
      simp only [twice, Except.ok.injEq] at begun ⊢
      refine ⟨Grouping.sortByKey DemandGroup.path runs, ?_, begun.symm, fun others => rfl⟩
      rw [Grouping.sortByKey_eq_nil, ← length_eq_zero_iff,
        ← (Grouping.mapM_ok_iff.mp made).length_eq, length_eq_zero_iff]

variable {request : Request K C G}

section

variable (begun : request.resetTransaction codec = .ok transaction)
include begun

theorem resetTransaction_changedPaths
    (single : ¬(request.compactDemands.isSome ∧ !request.demands.isEmpty)) :
    transaction.changedPaths = [] ↔ request.namesPath = false := by
  unfold Request.resetTransaction at begun
  cases packed : request.compactDemands with
  | none =>
    simp only [packed, Except.ok.injEq] at begun
    rw [← begun, beginPlain, beginRuns_changedPaths, map_eq_nil_iff,
      sessionChangedDemandRuns_eq_nil]
    simp [Request.namesPath, packed]
  | some compact =>
    simp only [packed] at begun single
    obtain ⟨runs, empty, rfl, -⟩ := beginCompact_ok begun
    rw [beginRuns_changedPaths, empty]
    have plain : request.demands = [] := by simpa using single
    simp [Request.namesPath, packed, plain]

theorem resetTransaction_groups (nothing : request.namesPath = false) :
    transaction.groups = [] := by
  unfold Request.resetTransaction at begun
  cases packed : request.compactDemands with
  | none =>
    simp only [packed, Except.ok.injEq] at begun
    simp only [Request.namesPath, packed, Bool.or_eq_false_iff, Bool.not_eq_false',
      List.isEmpty_iff] at nothing
    rw [← begun, beginPlain, (sessionChangedDemandRuns_eq_nil _).mpr nothing.1.1, nothing.2]
    rfl
  | some compact =>
    simp only [packed] at begun
    simp only [Request.namesPath, packed, Bool.or_eq_false_iff, Bool.not_eq_false',
      List.isEmpty_iff, Option.any_some] at nothing
    obtain ⟨runs, empty, rfl, -⟩ := beginCompact_ok begun
    rw [empty.mpr nothing.1.2, nothing.2]
    rfl

end

namespace Session

section

variable (host : Host β H K F A Y G I)

private theorem unlessCancelled_yields {α : Type} (code : ErrorCode) {step : ClosureStep β H F A α}
    {start : DemandClosure β H F A → Prop} {good : α → Prop}
    (yields : Yields start step fun value _ => good value) :
    Yields (fun session : Session β H K F A C => start session.closure)
      (unlessCancelled host code step) fun value _ => good value := by
  refine .bind (fun outcome _ => ∀ value, outcome = .ok value → good value) ?_ fun outcome => ?_
  · intro session begun outcome attempted value same
    cases attempted
    exact yields session.closure begun value same
  · cases outcome with
    | ok value => exact .pure fun _ holds => holds value rfl
    | error text => exact .bind (fun _ _ => True) (fun _ _ _ _ => trivial) fun _ => .throw

variable (request) (response : Response H F A Y I)

private theorem populateSymbolEvidence_transition :
    Yields (fun _ => True) (DemandClosure.populateSymbolEvidence host request response)
      fun given _ => given.transition = response.transition := by
  refine .bind (fun _ _ => True) (fun _ _ _ _ => trivial) fun evidence => ?_
  refine .bind (fun given _ => given.transition = response.transition) ?_ fun carried => ?_
  · unfold DemandClosure.carryEvidence
    split
    · exact .bind (fun _ _ => True) (fun _ _ _ _ => trivial) fun _ =>
        .pure fun _ _ => rfl
    · exact .pure fun _ _ => rfl
  refine .bind (fun given _ => given.transition = response.transition) ?_ fun given =>
    .bind (fun _ _ => given.transition = response.transition) (fun _ same _ _ => same)
      fun _ => .pure fun _ same => same
  unfold DemandClosure.carryReferences
  split
  · refine .bind (fun _ _ => carried.transition = response.transition)
      (fun _ same _ _ => same) fun changed => ?_
    obtain ⟨ids, exact⟩ := changed
    dsimp only
    split
    · exact .bind (fun _ _ => carried.transition = response.transition)
        (fun _ same _ _ => same) fun _ => .pure fun _ same => same
    · exact .pure fun _ same => same
  · exact .pure fun _ same => same

private theorem addEvidence_transition :
    Yields (fun _ => True) (addEvidence host request response : SessionStep β H K F A C _)
      fun given _ => given.transition = response.transition := by
  unfold addEvidence
  split
  · exact .pure fun _ _ => rfl
  · exact unlessCancelled_yields host .analysisFailed
      (populateSymbolEvidence_transition request host response)

variable {request} (codec) (cells : EntityCells F) (reset : request.resetState)
  (closure : DemandClosure β H F A)
include reset

private theorem beginDemands_reset :
    Yields (fun session => session.closure = closure)
      (beginDemands codec request) fun transaction session => session.closure = closure ∧
        ∃ begun, request.resetTransaction codec = .ok begun ∧
          transaction.groups = begun.groups ∧ transaction.changedPaths = begun.changedPaths := by
  refine .read_bind fun groups => ?_
  unfold Request.resetTransaction
  cases request.compactDemands with
  | none =>
    refine .pure fun session start => ⟨start.1, _, rfl, ?_⟩
    simp only [beginPlain, reset]
    rw [beginRuns_reset]
    exact ⟨rfl, rfl⟩
  | some compact =>
    dsimp only
    cases begun : beginCompact codec groups compact request.removedDemandPaths
      request.resetState with
    | error text => exact .throw
    | ok transaction =>
      refine .pure fun session start => ?_
      rw [reset] at begun
      obtain ⟨runs, -, rfl, others⟩ := beginCompact_ok begun
      refine ⟨start.1, _, others [], ?_⟩
      rw [beginRuns_reset]
      exact ⟨rfl, rfl⟩

omit reset

variable [DecidableEq H] [DecidableEq F] [DecidableEq A]

def HandsOut (good : ProducerTable H (EntityFact F) A → Prop)
    (transition : Option (Transition H (EntityFact F) A)) : Prop :=
  ∃ table full, good table ∧ transition = some full ∧ full.mode = .full ∧
    full.materialize = table.rows

variable (token : String) (target : ProducerTable H (EntityFact F) A) (sparse : Bool)

private theorem encode_full : encode token none target sparse ≠ .error .sparseUnavailable ∧
      ∀ transition, encode token none target sparse = .ok transition → transition.mode = .full ∧
        transition.materialize = target.rows := by
  have planned : ∀ paths operations error,
      planFullPaths target paths operations = .error error → error ≠ .sparseUnavailable := by
    intro paths
    induction paths with
    | nil => exact fun operations error failed => nomatch failed
    | cons path later ih =>
      intro operations error failed
      unfold planFullPaths at failed
      split at failed
      · cases failed
        exact nofun
      · exact ih _ error failed
  have checked : Producer.validate token none target = .ok (.full, 0) ∨
      ∃ reason, Producer.validate token none target = .error (.invalid reason) := by
    unfold Producer.validate
    by_cases zero : target.generation = 0
    · exact .inr ⟨_, if_pos zero⟩
    · by_cases plain : token = ""
      · exact .inl (by simp [zero, plain])
      · exact .inr ⟨.fullWithToken, by simp [zero, plain]⟩
  unfold encode
  rcases checked with full | ⟨reason, refused⟩
  · rw [full]
    cases paths : planPaths none target sparse with
    | error error =>
      refine ⟨fun failed => ?_, fun transition made => nomatch made⟩
      exact planned _ _ error paths (Except.error.inj failed)
    | ok operations =>
      refine ⟨nofun, fun transition made => ?_⟩
      cases made
      exact ⟨rfl, planFull_rows paths⟩
  · rw [refused]
    exact ⟨nofun, fun transition made => nomatch made⟩

private theorem encodeTransition_full : Yields (fun _ => True)
      (encodeTransition host token none target sparse : SessionStep β H K F A C _)
      fun encoded _ => encoded ≠ .error .sparseUnavailable ∧
        ∀ transition, encoded = .ok transition → transition.mode = .full ∧
          transition.materialize = target.rows := by
  obtain ⟨available, carries⟩ := encode_full token target sparse
  unfold encodeTransition
  cases made : encode token none target sparse with
  | error error =>
    rw [made] at available
    exact .pure fun _ _ => ⟨available, fun _ same => nomatch same⟩
  | ok transition =>
    have right := carries transition made
    have sent : ∀ other,
        (.ok transition : Except EncodeError _) = .ok other →
          other.mode = .full ∧ other.materialize = target.rows := by
      intro other same
      cases same
      exact right
    dsimp only
    split
    · exact .pure fun _ _ => ⟨nofun, sent⟩
    · refine .bind (fun _ _ => True) (fun _ _ _ _ => trivial) fun written => ?_
      cases written with
      | ok _ => exact .pure fun _ _ => ⟨nofun, sent⟩
      | error text => exact .pure fun _ _ => ⟨nofun, fun _ same => nomatch same⟩

variable {good : ProducerTable H (EntityFact F) A → Prop}
include reset

private theorem transitionTo_reset (transaction : DemandTransaction K C) (generation : ℕ)
    (analyzed : ProducerTable H (EntityFact F) A) :
    Yields (fun _ => True) (transitionTo host codec cells request transaction generation analyzed)
      fun handed _ => handed.1 = analyzed ∧ handed.2.mode = .full ∧
        handed.2.materialize = analyzed.rows := by
  refine .read_bind fun session => ?_
  simp only [reset, if_true, Option.isSome_none, Bool.false_eq_true, if_false]
  refine (Yields.bind _ (encodeTransition_full host "" analyzed true) fun encoded => ?_).weaken
    (fun _ _ => trivial) fun _ _ holds => holds
  cases encoded with
  | ok transition => exact .pure fun _ holds => ⟨rfl, holds.2 transition rfl⟩
  | error error =>
    cases error with
    | sparseUnavailable => exact fun _ holds => absurd rfl holds.1
    | invalid reason => exact .throw
    | sink text => exact .throw

private theorem analyzeGroups_reset (transaction : DemandTransaction K C)
    (built : Yields (fun current => current = closure)
      (DemandClosure.demandTableForPreparedGroups host.toBackend codec cells closure.generation
        transaction.groups transaction.changedPaths) fun table _ => good table) :
    Yields (fun session => session.closure = closure)
      (analyzeGroups host codec cells request transaction)
      fun handed _ => HandsOut good handed.2.transition := by
  refine .read_bind fun session => ?_
  refine .bind (fun analyzed _ => good analyzed) ?_ fun analyzed => ?_
  · intro state start
    have generation : session.closure.generation = closure.generation := by rw [← start.2, ← start.1]; rfl
    rw [generation]
    exact unlessCancelled_yields host .analysisFailed built state start.1
  refine .bind (fun _ _ => good analyzed) (fun _ holds _ _ => holds) fun _ => ?_
  refine .bind (fun _ _ => good analyzed) (fun _ holds _ _ => holds) fun strict => ?_
  refine .bind (fun handed _ => good analyzed ∧ handed.1 = analyzed ∧ handed.2.mode = .full ∧
    handed.2.materialize = analyzed.rows) ?_ fun handed => ?_
  · exact fun state holds handed returned => ⟨holds,
      transitionTo_reset codec host cells reset transaction _ analyzed state trivial handed returned⟩
  obtain ⟨table, transition⟩ := handed
  dsimp only
  generalize shown : (decide (transition.mode ≠ .delta) ||
      decide (some table.generation ≠ session.table.map ProducerTable.generation) ||
      decide (transition.paths ≠ [])) = carried
  refine .bind (fun _ _ => HandsOut good (some transition) ∧ carried) ?_ fun _ => ?_
  · rintro state ⟨holds, -, full, rows⟩ _ _
    refine ⟨⟨analyzed, transition, holds, rfl, full, rows⟩, ?_⟩
    rw [← shown, full]
    rfl
  refine .bind (fun response _ => HandsOut good response.transition) ?_ fun response => ?_
  · intro state handed response added
    have same := addEvidence_transition request host _ state trivial response added
    dsimp only at same
    rw [same, if_pos handed.2]
    exact handed.1
  · exact .bind (fun _ _ => HandsOut good response.transition) (fun _ holds _ _ => holds)
      fun _ => .pure fun _ holds => holds

private theorem analyze_reset (built : ∀ begun, request.resetTransaction codec = .ok begun →
      Yields (fun current => current = closure)
        (DemandClosure.demandTableForPreparedGroups host.toBackend codec cells closure.generation
          begun.groups begun.changedPaths) fun table _ => good table) :
    Yields (fun session => session.closure = closure) (analyze host codec cells request)
      fun response _ => HandsOut good response.transition := by
  refine .bind _ (beginDemands_reset codec reset closure) fun transaction => ?_
  refine .modify_bind (fun session => session.closure = closure ∧
    ∃ begun, request.resetTransaction codec = .ok begun ∧
      transaction.groups = begun.groups ∧ transaction.changedPaths = begun.changedPaths)
    (fun _ holds => holds) ?_
  refine .bind (fun handed _ => HandsOut good handed.2.transition)
    (.catching ?_ fun _ _ _ => nofun) fun handed => ?_
  · rintro session ⟨start, begun, same, groups, paths⟩
    refine analyzeGroups_reset codec host cells reset closure transaction ?_ session start
    rw [groups, paths]
    exact built begun same
  · exact .modify_bind (fun _ => HandsOut good handed.2.transition) (fun _ holds => holds)
      (.pure fun _ holds => holds)

theorem lifecycle_reset (analysis : request.operation = .analyze)
    (built : ∀ begun, request.resetTransaction codec = .ok begun →
      ¬(request.compactDemands.isSome ∧ !request.demands.isEmpty) →
      Yields (fun current => current = closure)
        (DemandClosure.demandTableForPreparedGroups host.toBackend codec cells closure.generation
          begun.groups begun.changedPaths) fun table _ => good table) :
    Yields (fun session => session.closure = closure) (lifecycle host codec cells request)
      fun response _ => HandsOut good response.transition := by
  refine .bind (fun _ session => session.closure = closure)
    (.ofExcept fun _ _ _ start => start) fun _ => .read_bind fun session => ?_
  split
  · exact .throw
  split
  · rw [analysis]
    exact .throw
  refine .read_bind fun session => ?_
  simp only [analysis]
  refine .bind (fun _ session => session.closure = closure) ?_ fun _ => ?_
  · unfold expectGeneration
    split
    · exact .throw
    · exact .pure fun _ start => start.1.1
  split
  · exact .throw
  rename_i single
  split
  · exact .throw
  split
  · rename_i nothing
    simp [asksNothing, reset] at nothing
  · exact analyze_reset codec host cells reset closure fun begun same => built begun same single

end

end Session

end SolidChecker.Producer
