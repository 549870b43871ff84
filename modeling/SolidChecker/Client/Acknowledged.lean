/- source: typefacts/src/session.rs -/

import SolidChecker.Client.Replay

namespace SolidChecker.Client

open List

open Foundation (Act)
open Foundation.Act (Meets)

variable {P S D : Type}

namespace Session

section

variable [DecidableEq P]

def Thinner (changes : List (FileChange P S)) (fewer batch : List (FileChange P S)) : Prop :=
  fewer.Sublist batch ∧ ∀ change ∈ batch, change ∈ fewer ∨ change.path ∈ changes.map FileChange.path

omit [DecidableEq P] in
private theorem thinner_refl (changes : List (FileChange P S))
    (batches : List (List (FileChange P S))) : List.Forall₂ (Thinner changes) batches batches :=
  forall₂_same.mpr fun batch _ => ⟨.refl batch, fun _ member => .inl member⟩

variable {changes : List (FileChange P S)}

omit [DecidableEq P] in
private theorem thinner_trans {first second third : List (List (FileChange P S))}
    (left : List.Forall₂ (Thinner changes) first second)
    (right : List.Forall₂ (Thinner changes) second third) :
    List.Forall₂ (Thinner changes) first third := by
  induction left generalizing third with
  | nil => exact right
  | cons thin _ ih =>
    obtain ⟨batch, rest, thick, tail, rfl⟩ := forall₂_cons_left_iff.mp right
    refine .cons ⟨thin.1.trans thick.1, fun change member => ?_⟩ (ih tail)
    rcases thick.2 change member with inside | named
    · exact thin.2 change inside
    · exact .inr named

private theorem thinner_modify {path : P} (named : path ∈ changes.map FileChange.path)
    (batches : List (List (FileChange P S))) (index : ℕ) :
    List.Forall₂ (Thinner changes) (batches.modify index fun previous =>
      previous.filter fun kept => kept.path ≠ path) batches := by
  induction batches generalizing index with
  | nil => cases index <;> exact .nil
  | cons batch batches ih =>
    cases index with
    | zero =>
      refine .cons ⟨filter_sublist, fun change member => ?_⟩ (thinner_refl changes batches)
      by_cases same : change.path = path
      · exact .inr (same ▸ named)
      · exact .inl (mem_filter.mpr ⟨member, decide_eq_true same⟩)
    | succ index => exact .cons ⟨.refl batch, fun _ member => .inl member⟩ (ih index)

theorem supersede_spec (changes : List (FileChange P S)) (session : Session P S D) :
    let after := supersedeReplayedOverlays changes session
    List.Forall₂ (Thinner changes) after.replayBatches session.replayBatches ∧
    after.generation = session.generation ∧ after.connection = session.connection ∧
    after.restartEpoch = session.restartEpoch := by
  have loop : ∀ (next : ℕ) (todo : List (FileChange P S)) (session : Session P S D),
      (∀ change ∈ todo, change.path ∈ changes.map FileChange.path) →
      let after := todo.foldl (supersedeChange next) session
      List.Forall₂ (Thinner changes) after.replayBatches session.replayBatches ∧
      after.generation = session.generation ∧ after.connection = session.connection ∧
      after.restartEpoch = session.restartEpoch := by
    intro next todo
    induction todo with
    | nil => exact fun session _ => ⟨thinner_refl changes _, rfl, rfl, rfl⟩
    | cons change todo ih =>
      intro session named
      obtain ⟨rest, generation, connection, epoch⟩ := ih (supersedeChange next session change)
        fun other member => named other (mem_cons_of_mem _ member)
      have step : List.Forall₂ (Thinner changes)
          (supersedeChange next session change).replayBatches session.replayBatches := by
        unfold supersedeChange
        cases session.replayIndex.lookup change.path with
        | none => exact thinner_refl changes _
        | some batch => exact thinner_modify (named change mem_cons_self) _ batch
      have frame : (supersedeChange next session change).generation = session.generation ∧
          (supersedeChange next session change).connection = session.connection ∧
          (supersedeChange next session change).restartEpoch = session.restartEpoch := by
        unfold supersedeChange
        cases session.replayIndex.lookup change.path <;> exact ⟨rfl, rfl, rfl⟩
      exact ⟨thinner_trans rest step, generation.trans frame.1, connection.trans frame.2.1,
        epoch.trans frame.2.2⟩
  exact loop _ changes session fun change member => mem_map_of_mem member

private theorem commit_meets {acknowledged : List (List (FileChange P S))} :
    Meets (fun state => ∃ generation,
        Accepted acknowledged generation changes (Holds acknowledged) state)
      (commitUpdate changes : Step P S D PUnit)
      (Outcome (Current (acknowledged ++ [changes])) (Current acknowledged)) := by
  rintro state ⟨generation, accepted⟩
  obtain ⟨thinned, counted, connection, epoch⟩ := supersede_spec changes
    { state.session with generation := state.session.generation + 1 }
  refine ⟨⟨accepted.batches.append changes thinned, epoch.le.trans accepted.epoch⟩,
    fun process connected alive => ?_⟩
  obtain ⟨earlier, holds, level, reached, opened, updates⟩ :=
    accepted.live process (connection.symm.trans connected) alive
  rw [if_pos holds.opened] at updates
  refine ⟨⟨opened.trans holds.opened, ?_, ?_⟩, ?_⟩
  · rw [updates]
    exact holds.updates.append changes (thinner_refl changes _)
  · rw [reached, ← level, holds.generation, length_append, length_singleton, Nat.add_assoc]
  · exact counted.trans (by rw [accepted.here, reached])

end

private theorem At.current {acknowledged : List (List (FileChange P S))} {generation : ℕ}
    {state : State P S D} (here : At acknowledged generation (Holds acknowledged) state) :
    Current acknowledged state := by
  refine ⟨here.toRecoverable, fun process connected alive => ?_⟩
  obtain ⟨holds, level⟩ := here.live process connected alive
  exact ⟨holds, here.here.trans level.symm⟩

private theorem updating [DecidableEq P] (env : Environment P)
    (acknowledged : List (List (FileChange P S))) (changes : List (FileChange P S)) :
    Updating env changes (fun state : State P S D => state.Answered env → Current acknowledged state)
      (fun generation state => state.Answered env →
        At acknowledged generation (Holds acknowledged) state)
      (fun state => state.Answered env → ∃ generation,
        Accepted acknowledged generation changes (Holds acknowledged) state)
      fun state => state.Answered env → Current (acknowledged ++ [changes]) state where
  sends generation := by
    have sent : Meets (fun state : State P S D =>
        Current acknowledged state ∧ state.session.generation = generation) (send env .ordinary)
        (Outcome (At acknowledged generation (Holds acknowledged)) (Current acknowledged)) := by
      refine send_meets (fun _ reading _ => reading.1) (fun state reading asked dead gone => ?_)
        fun state reading asked n _ => ?_
      · have recoverable : Recoverable acknowledged { state with asked } :=
          ⟨reading.1.1.1, reading.1.1.2⟩
        exact (down_dead recoverable gone).current
      · refine ⟨⟨reading.1.1.1, reading.1.1.2⟩, reading.2, fun process connected alive => ?_⟩
        obtain ⟨holds, level⟩ := reading.1.live process connected alive
        exact ⟨holds, level.symm.trans reading.2⟩
    exact (outcome_under ((aside_unanswered env).send env _) sent).strengthen
      (fun _ reading answered => ⟨reading.1 answered, reading.2⟩)
  waits generation fate := by
    refine outcome_under ((aside_unanswered env).wait _ fate)
      ((wait_update fate).relax fun result state outcome => ?_)
    cases result with
    | ok response => exact ⟨generation, outcome⟩
    | error error => exact outcome.elim Down.current fun refused => refused.1.current
  restart := conduct.restart
  commits := outcome_under (fun _ no => no) commit_meets

end Session

namespace Use

variable [LinearOrder P] {env : Environment P}

private theorem keeps_current : Keeps env fun acknowledged (state : State P S D) =>
    state.Answered env → Current acknowledged state where
  updates acknowledged depth changes := by
    have updated := (Session.updating (D := D) env acknowledged changes).update depth
    by_cases nothing : changes.isEmpty = true <;> simpa [nothing] using updated
  reads _ := ⟨_, _, Session.conduct⟩
  closes _ _ current answered := ⟨⟨(current answered).1.1, (current answered).1.2⟩, nofun⟩

variable [DecidableEq D]

omit [LinearOrder P] [DecidableEq D] in
private theorem opening_meets : Meets (· = Session.unopened)
      (do Session.spawn env; Session.exchange env (.open 1) : Step P S D (Response P S))
      (Session.Outcome (fun state => state.Answered env → Current [] state) fun _ => True) := by
  refine .bind (Session.Outcome (Session.At [] 1 fun process => process.updates = [])
    fun _ => True) ?_ (fun _ _ _ => trivial) fun _ => ?_
  · rintro state rfl
    unfold Session.spawn
    cases env.start Session.unopened.started with
    | some error => trivial
    | none =>
      refine ⟨⟨.nil, Nat.zero_le _⟩, rfl, fun process connected _ => ?_⟩
      cases connected
      exact ⟨rfl, rfl⟩
  refine .catching _ Session.exchangeOnce_open (fun _ state here _ => ?_) fun error => ?_
  · refine ⟨here.toRecoverable, fun process connected alive => ?_⟩
    obtain ⟨⟨opened, updates⟩, level⟩ := here.live process connected alive
    exact ⟨⟨opened, updates ▸ .nil, level⟩, here.here.trans level.symm⟩
  by_cases transport : error.isTransportFailure
  · rw [if_pos transport]
    refine .bind (fun _ state => state.Answered env → Current [] state)
      (Session.restart_meets.strengthen (fun state failed => ?_))
      (fun _ _ _ => trivial) fun _ => ?_
    · exact failed.elim And.left fun refused => refused.1.toRecoverable
    · exact Session.outcome_of_keeps ((Session.answers_under
        ((aside_unanswered env).exchangeOnce env _ _)
        (Session.exchangeOnce_current (by exact nofun))).relax
        fun _ _ outcome => outcome.1) fun _ _ => trivial
  · rw [if_neg transport]
    exact .throw fun _ _ => trivial

/-- In a run in which no restarted process refuses a replayed request, every table an analysis
returns is made of answers of processes that accepted, after their open, one update per
acknowledged update, in order, and are at the generation one more than their number. -/
theorem analyze_holds_acknowledged (depth : ℕ)
    (sources : List (FileChange P S)) (calls : List (Call P S D)) (use : Use P S D)
    (ran : run env depth sources calls = some use) (groups : List (DemandGroup P D))
    (table : FactTable P S) (after : State P S D)
    (analyzed : Session.analyzeGroups env groups use.state = (.ok table, after))
    (answered : env.ReplaysAnswered after.started (after.asked .replay)) :
    table.answers ≠ [] ∧ ∀ process ∈ table.answers, process.opened = true ∧
      Trims process.updates use.acknowledged ∧
      process.generation = 1 + use.acknowledged.length := by
  have outcome := Session.conduct.analyzeGroups groups use.state
    (keeps_current.run opening_meets ran)
  rw [analyzed] at outcome
  obtain ⟨some_answer, held⟩ := outcome.2 table rfl
  exact ⟨some_answer, fun process member =>
    ⟨(held process member answered).opened, (held process member answered).updates,
      (held process member answered).generation⟩⟩

/-- The third ordinary request loses its process; the restarted one answers its open and refuses
the replayed update. -/
def refusingReplay : Environment ℕ where
  start _ := none
  fate lane n := match lane with
    | .ordinary => if n = 2 then .lost false else .answered true 0
    | .replay => if n = 1 then .refused .updateFailed else .answered true 0

/-- After a refused replay the session keeps the partly replayed process, and its next analysis
answers without the acknowledged update. -/
theorem analyze_misses_update :
    ¬∀ (env : Environment ℕ) (depth : ℕ) (sources : List (FileChange ℕ ℕ))
      (calls : List (Call ℕ ℕ ℕ)) (use : Use ℕ ℕ ℕ), run env depth sources calls = some use →
      ∀ (groups : List (DemandGroup ℕ ℕ)) (table : FactTable ℕ ℕ) (after : State ℕ ℕ ℕ),
      Session.analyzeGroups env groups use.state = (.ok table, after) →
      table.answers ≠ [] ∧ ∀ process ∈ table.answers, process.opened = true ∧
        Trims process.updates use.acknowledged ∧
        process.generation = 1 + use.acknowledged.length := by
  intro always
  let calls : List (Call ℕ ℕ ℕ) := [.update 1 [⟨0, 0, false, 1⟩], .analyze []]
  have behind : ((run refusingReplay 1 [] calls).map fun use =>
      match (Session.analyzeGroups refusingReplay [] use.state).1 with
      | .ok table => table.answers.any fun process =>
        process.generation != 1 + use.acknowledged.length
      | .error _ => false) = some true := by decide +kernel
  obtain ⟨use, ran, misses⟩ := Option.map_eq_some_iff.mp behind
  cases analyzed : Session.analyzeGroups refusingReplay [] use.state with
  | mk result after =>
    rw [analyzed] at misses
    cases result with
    | error error => exact nomatch misses
    | ok table =>
      obtain ⟨process, member, differs⟩ := any_eq_true.mp misses
      have level := ((always _ _ _ _ use ran _ table after analyzed).2 process member).2.2
      exact absurd level (bne_iff_ne.mp differs)

def answeringReplay : Environment ℕ where
  start n := if n < 2 then none else some .spawn
  fate lane n := match lane with
    | .ordinary => if n = 2 then .lost false else .answered true 0
    | .replay => .answered true 0

theorem analyze_holds_acknowledged_restarted :
    ∃ use table after,
      run answeringReplay 1 [] [.update 1 [⟨0, 0, false, 1⟩]] = some use ∧
      Session.analyzeGroups answeringReplay ([] : List (DemandGroup ℕ ℕ)) use.state =
        (.ok table, after) ∧
      table.answers ≠ [] ∧ ∀ process ∈ table.answers, process.opened = true ∧
        Trims process.updates use.acknowledged ∧
        process.generation = 1 + use.acknowledged.length := by
  have answered : ∀ started replayed, answeringReplay.ReplaysAnswered started replayed := by
    refine fun _ _ => ⟨fun n _ code => nofun, fun n _ many => ?_⟩
    have late : ¬n < 2 := by omega
    show (if n < 2 then none else some SessionError.spawn) ≠ none
    rw [if_neg late]
    exact Option.some_ne_none _
  have answers : ((run answeringReplay 1 [] [.update 1 [⟨0, 0, false, 1⟩]]).map fun use =>
      (Session.analyzeGroups answeringReplay ([] : List (DemandGroup ℕ ℕ)) use.state).1.isOk) =
      some true := by decide +kernel
  obtain ⟨use, ran, ok⟩ := Option.map_eq_some_iff.mp answers
  cases analyzed : Session.analyzeGroups answeringReplay ([] : List (DemandGroup ℕ ℕ)) use.state with
  | mk result after =>
    rw [analyzed] at ok
    cases result with
    | error error => exact nomatch ok
    | ok table =>
      exact ⟨use, table, after, ran, analyzed,
        analyze_holds_acknowledged _ _ _ use ran _ table after analyzed (answered _ _)⟩

end Use

end SolidChecker.Client
