/- source: typefacts/src/session.rs -/

import SolidChecker.Client.Session

namespace SolidChecker.Client

open List

open Foundation (Act)
open Foundation.Act (Meets Stays)

variable {P S D : Type}

def Request.Reading (request : Request P S D) : Prop :=
  (∀ generation changes, request ≠ .update generation changes) ∧
    ∀ generation, request ≠ .open generation

namespace Session

variable {α : Type} {kept : State P S D → Prop}

def Outcome (done failed : State P S D → Prop) :
    Except (SessionError P) α → State P S D → Prop
  | .ok _, state => done state
  | .error _, state => failed state

theorem outcome_of_keeps {before failed : State P S D → Prop} {act : Step P S D α}
    (keeps : Meets before act fun _ => kept) (failing : ∀ state, kept state → failed state) :
    Meets before act (Outcome kept failed) :=
  keeps.relax fun result state after => by
    cases result with
    | ok value => exact after
    | error error => exact failing state after

def Answers (kept : State P S D → Prop) (good : α → State P S D → Prop)
    (result : Except (SessionError P) α) (state : State P S D) : Prop :=
  kept state ∧ ∀ value, result = .ok value → good value state

variable {good : α → State P S D → Prop} {state : State P S D}

section

variable {pre done failed known : State P S D → Prop} {act : Step P S D α}
  (back : Stays (fun state => ¬ known state) act)

include back

theorem outcome_under (meets : Meets pre act (Outcome done failed)) :
    Meets (fun state => known state → pre state) act
      (Outcome (fun state => known state → done state) fun state => known state → failed state) :=
  (meets.under back).relax fun result _ outcome => by
    cases result <;> exact outcome

theorem answers_under (meets : Meets pre act (Answers kept good)) :
    Meets (fun state => known state → pre state) act
      (Answers (fun state => known state → kept state) fun value state => known state → good value state) :=
  (meets.under back).relax fun _ _ answers =>
    ⟨fun knows => (answers knows).1, fun value told knows => (answers knows).2 value told⟩

end

private theorem Answers.ok {value : α}
    (keeps : kept state) (holds : good value state) : Answers kept good (.ok value) state :=
  ⟨keeps, fun _ told => Except.ok.inj told ▸ holds⟩

private theorem Answers.error {error : SessionError P}
    (keeps : kept state) : Answers kept good (.error error) state :=
  ⟨keeps, nofun⟩

private theorem ensureOpen_keeps : Stays kept (ensureOpen : Step P S D PUnit) := by
  refine .read_bind fun closed => ?_
  split
  · exact .throw fun _ reading => reading.1
  · exact .pure fun _ reading => reading.1

private theorem rejectForeignLocations_keeps (groups : List (DemandGroup P D)) :
    Stays kept (rejectForeignLocations groups) := by
  unfold rejectForeignLocations
  split
  · exact Meets.throw fun _ keeps => keeps
  · exact Meets.pure fun _ keeps => keeps

variable {env : Environment P}

/-- What no request and no restart moves: the counts may grow, and the session may change but for the
batches to replay and their index. -/
structure Aside (kept : State P S D → Prop) : Prop where
  asks : ∀ state lane, kept state → kept { state with
    asked := Function.update state.asked lane (state.asked lane + 1) }
  starts : ∀ state, kept state → kept { state with started := state.started + 1 }
  turns : ∀ state session, session.replayBatches = state.session.replayBatches →
    session.replayIndex = state.session.replayIndex → kept state → kept { state with session }

theorem aside_true : Aside fun _ : State P S D => True :=
  ⟨fun _ _ _ => trivial, fun _ _ => trivial, fun _ _ _ _ _ => trivial⟩

section

variable (env) (aside : Aside kept)

include aside

theorem Aside.send (lane : Lane) : Stays kept (Session.send env lane) := by
  intro state holds
  unfold Session.send
  split
  · exact holds
  · dsimp only
    split
    · exact aside.turns _ _ rfl rfl (aside.asks state lane holds)
    · exact aside.asks state lane holds

theorem Aside.wait (request : Request P S D) (fate : Fate) :
    Stays kept (Session.wait request fate) := by
  intro state holds
  have moved : ∀ connection, kept (setConnection connection state) := fun _ =>
    aside.turns _ _ rfl rfl holds
  unfold Session.wait
  split
  · exact holds
  · split
    · split
      · exact moved _
      · exact moved _
      · exact holds
      · dsimp only
        split
        · exact moved _
        · split <;> exact moved _
    · exact holds

theorem Aside.exchangeOnce (lane : Lane) (request : Request P S D) :
    Stays kept (Session.exchangeOnce env lane request) :=
  (aside.send env lane).bind fun fate => aside.wait request fate

theorem Aside.spawn : Stays kept (Session.spawn env) := by
  intro state holds
  unfold Session.spawn
  dsimp only
  split <;> exact aside.turns _ _ rfl rfl (aside.starts state holds)

private theorem Aside.replay (batches : List (List (FileChange P S))) :
    Stays kept (Session.replay env batches) := by
  induction batches with
  | nil => exact .pure _
  | cons changes batches ih =>
    refine (Stays.read _).bind fun generation => (aside.exchangeOnce env _ _).bind fun _ => ?_
    exact Stays.bind (fun _ => aside.turns _ _ rfl rfl) fun _ => ih

theorem Aside.restart : Stays kept (restartAndReplay env) := by
  refine (aside.spawn env).bind fun _ => Stays.bind (fun state holds => ?_) fun _ => ?_
  · unfold bumpEpoch
    dsimp only
    split
    · exact aside.turns _ _ rfl rfl holds
    · exact holds
  refine Stays.bind (fun _ => aside.turns _ _ rfl rfl) fun _ =>
    Stays.bind (fun _ => aside.turns _ _ rfl rfl) fun _ => ?_
  exact (aside.exchangeOnce env _ _).bind fun _ => (Stays.read _).bind fun batches =>
    aside.replay env batches

theorem Aside.exchange (request : Request P S D) : Stays kept (Session.exchange env request) := by
  refine Stays.catching (aside.exchangeOnce env _ _) fun error => ?_
  split
  · exact (aside.restart env).bind fun _ => aside.exchangeOnce env _ _
  · exact .throw _

end

theorem exchange_answers {told : Response P S → State P S D → Prop} {request : Request P S D}
    (once : Meets kept (exchangeOnce env .ordinary request) (Answers kept told))
    (restart : Stays kept (restartAndReplay env)) :
    Meets kept (exchange env request) (Answers kept told) := by
  refine .catching _ once (fun _ _ outcome => outcome) fun error => ?_
  split
  · refine .bind _ (restart.strengthen (fun _ outcome => outcome.1))
      (fun _ _ keeps => .error keeps) fun _ => once
  · exact .throw fun _ outcome => .error outcome.1

section

variable [DecidableEq P]

/-- What the parts of an update call come to: one that is `ready` to be sent at a generation is
`accepted` by a process, and `updated` once it is recorded. -/
structure Updating (env : Environment P) (changes : List (FileChange P S))
    (kept : State P S D → Prop) (ready : ℕ → State P S D → Prop)
    (accepted updated : State P S D → Prop) : Prop where
  sends : ∀ generation, Meets (fun state => kept state ∧ state.session.generation = generation)
    (send env .ordinary) (Outcome (ready generation) kept)
  waits : ∀ generation fate, Meets (ready generation)
    (wait (.update (generation + 1) changes) fate) (Outcome accepted kept)
  restart : Stays kept (restartAndReplay env)
  commits : Meets accepted (commitUpdate changes) (Outcome updated kept)

variable {changes : List (FileChange P S)} {ready : ℕ → State P S D → Prop}
  {accepted updated : State P S D → Prop}
  (updating : Updating env changes kept ready accepted updated)

include updating

private theorem Updating.finish (generation : ℕ) (fate : Fate) :
    Meets (ready generation) (finishUpdate env (.update (generation + 1) changes) fate changes)
      (Outcome updated kept) := by
  refine .bind (Outcome accepted kept) ?_ (fun _ _ keeps => keeps) fun _ => updating.commits
  refine .catching _ (updating.waits generation fate) (fun _ _ sent => sent) fun error => ?_
  split
  · refine .bind _ updating.restart (fun _ _ keeps => keeps) fun _ => ?_
    exact .read_bind fun reached =>
      .bind _ (updating.sends reached) (fun _ _ keeps => keeps) (updating.waits reached)
  · exact .throw fun _ keeps => keeps

theorem Updating.update (depth : ℕ) : Meets kept (Session.update env depth changes)
    (Outcome (if changes.isEmpty then kept else updated) kept) := by
  induction depth with
  | zero => exact .throw fun _ keeps => keeps
  | succ depth ih =>
    refine .bind _ ensureOpen_keeps (fun _ _ keeps => keeps) fun _ => ?_
    by_cases nothing : changes.isEmpty
    · simp only [nothing, if_true]
      exact .pure fun _ keeps => keeps
    simp only [nothing] at ih ⊢
    refine .read_bind fun generation => ?_
    let sent (result : Except (SessionError P) (Option Fate)) : State P S D → Prop := match result with
      | .ok (some _) => ready generation
      | _ => kept
    refine .bind sent ?_ (fun _ _ keeps => keeps) fun fate => ?_
    · refine .catching sent ?_ (fun _ _ outcome => outcome) fun error => ?_
      · exact .bind _ (updating.sends generation) (fun _ _ keeps => keeps)
          fun fate => .pure fun _ here => here
      · by_cases transport : error.isTransportFailure
        · rw [if_pos transport]
          exact .pure fun _ keeps => keeps
        · rw [if_neg transport]
          exact .throw fun _ keeps => keeps
    · cases fate with
      | some fate => exact updating.finish generation fate
      | none => exact .bind _ updating.restart (fun _ _ keeps => keeps) fun _ => ih

end

/-- What the calls that read rest on: an exchange and a restart keep something, an answer is
`told`, the process that told it is `good`, and the retained runs do not matter. -/
structure Conduct (env : Environment P) (kept : State P S D → Prop)
    (told : Response P S → State P S D → Prop) (good : Process P S → State P S D → Prop) : Prop where
  once : ∀ lane request, request.Reading →
    Meets kept (exchangeOnce env lane request) (Answers kept told)
  restart : Stays kept (restartAndReplay env)
  retains : ∀ state token demands, kept state → kept { state with
    session := { state.session with stateToken := token, retainedDemands := demands } }
  tells : ∀ response state, told response state → good response.process state
  lasts : ∀ process, Aside (good process)

section

variable {told : Response P S → State P S D → Prop} {good : Process P S → State P S D → Prop}
  (conduct : Conduct env kept told good)

include conduct

theorem Conduct.query {request : ℕ → Request P S D}
    (reading : ∀ generation, (request generation).Reading) :
    Meets kept (Session.query env request) (Answers kept told) := by
  refine .bind _ ensureOpen_keeps (fun _ _ keeps => .error keeps) fun _ => ?_
  refine .read_bind fun generation => ?_
  refine .bind _ ((exchange_answers (conduct.once _ _ (reading generation))
    conduct.restart).strengthen (fun _ reading => reading.1))
    (fun _ _ outcome => .error outcome.1) fun response => ?_
  split
  · exact .pure fun _ outcome => outcome
  · exact .throw fun _ outcome => .error outcome.1

private theorem Conduct.closing (process : Process P S) (token followUps : ℕ) :
    Stays (good process) (Session.closeSymbols env token followUps) := by
  induction followUps with
  | zero => exact .pure _
  | succ followUps ih =>
    refine (Stays.read _).bind fun generation =>
      ((conduct.lasts process).exchangeOnce env _ _).bind fun response => ?_
    split
    · exact ih.bind fun _ => .pure _
    · exact .throw _

private theorem Conduct.closeSymbols (token followUps : ℕ) :
    Meets kept (Session.closeSymbols env token followUps)
      (Answers kept fun processes state => ∀ process ∈ processes, good process state) := by
  induction followUps with
  | zero => exact .pure fun _ keeps => .ok keeps nofun
  | succ followUps ih =>
    refine .read_bind fun generation => ?_
    refine .bind _ ((conduct.once _ _ (by exact ⟨nofun, nofun⟩)).strengthen
      (fun _ reading => reading.1))
      (fun _ _ outcome => .error outcome.1) fun response => ?_
    split
    · refine .bind _ ((ih.and (conduct.closing response.process token followUps)).strengthen
        (fun _ outcome => ⟨outcome.1, conduct.tells _ _ (outcome.2 response rfl)⟩)) (fun _ _ failed => .error failed.1.1) fun later => ?_
      exact .pure fun _ closed => .ok closed.1.1
        (forall_mem_cons.mpr ⟨closed.2, closed.1.2 later rfl⟩)
    · exact .throw fun _ outcome => .error outcome.1

def Told (good : Process P S → State P S D → Prop) (table : FactTable P S) (state : State P S D) :
    Prop := table.answers ≠ [] ∧ ∀ process ∈ table.answers, good process state

private theorem Conduct.analyzeExchange (demands : List D) (removed : List P) (reset : Bool) :
    Meets kept (Session.analyzeExchange env demands removed reset) (Answers kept (Told good)) := by
  refine .read_bind fun session => ?_
  refine .bind _ ((exchange_answers (conduct.once _ _ (by exact ⟨nofun, nofun⟩))
    conduct.restart).strengthen (fun _ reading => reading.1))
    (fun _ _ outcome => .error outcome.1) fun response => ?_
  split
  · refine .bind _ (((conduct.closeSymbols response.answer.token response.followUps).and
      (conduct.closing response.process _ _)).strengthen
      (fun _ outcome => ⟨outcome.1, conduct.tells _ _ (outcome.2 response rfl)⟩)) (fun _ _ failed => .error failed.1.1) fun symbols => ?_
    refine .modify_bind (fun state => kept state ∧
      ∀ process ∈ response.process :: symbols, good process state)
      (fun state closed => ⟨conduct.retains state _ _ closed.1.1, forall_mem_cons.mpr
        ⟨(conduct.lasts _).turns _ _ rfl rfl closed.2, fun process member =>
          (conduct.lasts process).turns _ _ rfl rfl (closed.1.2 symbols rfl process member)⟩⟩)
      (.pure fun _ closed => .ok closed.1 ⟨cons_ne_nil _ _, closed.2⟩)
  · exact .throw fun _ outcome => .error outcome.1

private theorem Conduct.retaining (demands : List D) (removed : List P) (reset : Bool)
    (change : (Finmap fun _ : P => D) → Finmap fun _ : P => D) :
    Meets kept (do
        let table ← Session.analyzeExchange env demands removed reset
        setRetained change
        pure table) (Answers kept (Told good)) := by
  refine .bind _ (conduct.analyzeExchange demands removed reset)
    (fun _ _ failed => .error failed.1) fun table => ?_
  exact .modify_bind (Answers kept (Told good) (.ok table))
    (fun state outcome => ⟨conduct.retains state _ _ outcome.1, fun _ told =>
      (outcome.2 _ told).imp_right fun all process member =>
        (conduct.lasts process).turns _ _ rfl rfl (all process member)⟩)
    (.pure fun _ outcome => outcome)

variable [LinearOrder P]

private theorem Conduct.analyzeComplete (groups : List (DemandGroup P D)) :
    Meets kept (Session.analyzeComplete env groups) (Answers kept (Told good)) :=
  .bind _ (rejectForeignLocations_keeps groups) (fun _ _ keeps => .error keeps)
    fun _ => conduct.retaining _ _ _ _

theorem Conduct.analyzeGroups [DecidableEq D] (groups : List (DemandGroup P D)) :
    Meets kept (Session.analyzeGroups env groups) (Answers kept (Told good)) := by
  refine .bind _ ensureOpen_keeps (fun _ _ keeps => .error keeps) fun _ => ?_
  cases duplicatePath [] groups with
  | some path => exact .throw fun _ keeps => .error keeps
  | none =>
    refine .read_bind fun session => ?_
    refine .bind _ ((rejectForeignLocations_keeps _).strengthen (fun _ reading => reading.1)) (fun _ _ keeps => .error keeps) fun _ => ?_
    refine .catching _ (conduct.retaining _ _ _ _) (fun _ _ outcome => outcome) fun error => ?_
    split
    · exact .modify_bind kept (fun state outcome => conduct.retains state _ _ outcome.1)
        (conduct.analyzeComplete groups)
    · split
      · exact .bind _ (conduct.restart.strengthen (fun _ outcome => outcome.1))
          (fun _ _ keeps => .error keeps) fun _ => conduct.analyzeComplete groups
      · exact .throw fun _ outcome => .error outcome.1

end

end Session

namespace Use

variable [LinearOrder P] [DecidableEq D] {env : Environment P} {use : Use P S D}

structure Keeps (env : Environment P)
    (kept : List (List (FileChange P S)) → State P S D → Prop) : Prop where
  updates : ∀ acknowledged depth changes, Meets (kept acknowledged)
    (Session.update env depth changes) (Session.Outcome
      (kept (if changes.isEmpty then acknowledged else acknowledged ++ [changes]))
      (kept acknowledged))
  reads : ∀ acknowledged, ∃ told good, Session.Conduct env (kept acknowledged) told good
  closes : ∀ acknowledged state, kept acknowledged state → kept acknowledged (Session.close state).2

variable {kept : List (List (FileChange P S)) → State P S D → Prop} (keeps : Keeps env kept)

include keeps

omit [DecidableEq D] in
private theorem Keeps.update (holds : kept use.acknowledged use.state) (depth : ℕ)
    (changes : List (FileChange P S)) :
    kept (use.update env depth changes).2.acknowledged (use.update env depth changes).2.state := by
  have updated := keeps.updates use.acknowledged depth changes use.state holds
  unfold Use.update
  generalize Session.update env depth changes use.state = outcome at updated ⊢
  obtain ⟨result, state⟩ := outcome
  cases result <;> exact updated

private theorem Keeps.perform (holds : kept use.acknowledged use.state) (call : Call P S D) :
    kept (use.perform env call).acknowledged (use.perform env call).state := by
  obtain ⟨told, good, conduct⟩ := keeps.reads use.acknowledged
  cases call with
  | update depth changes => exact keeps.update holds depth changes
  | analyze groups => exact (conduct.analyzeGroups groups use.state holds).1
  | configuredSources =>
    exact (conduct.query (by exact fun _ => ⟨nofun, nofun⟩) use.state holds).1
  | moduleGraph => exact (conduct.query (by exact fun _ => ⟨nofun, nofun⟩) use.state holds).1
  | close => exact keeps.closes _ _ holds

theorem Keeps.run {depth : ℕ} {sources : List (FileChange P S)} {calls : List (Call P S D)}
    (opening : Meets (· = Session.unopened)
      (do Session.spawn env; Session.exchange env (.open 1))
      (Session.Outcome (kept []) fun _ => True))
    (ran : run env depth sources calls = some use) : kept use.acknowledged use.state := by
  have first := opening Session.unopened rfl
  have opened : ∀ done, (openSession env depth sources : _ × Use P S D).1 = .ok done →
      kept (openSession env depth sources : _ × Use P S D).2.acknowledged
        (openSession env depth sources : _ × Use P S D).2.state := by
    unfold openSession
    generalize (do Session.spawn env; Session.exchange env (.open 1))
      Session.unopened = outcome at first ⊢
    obtain ⟨result, state⟩ := outcome
    cases result with
    | error error => exact nofun
    | ok response =>
      have start : kept (⟨state, []⟩ : Use P S D).acknowledged (⟨state, []⟩ : Use P S D).state := first
      exact fun _ _ => keeps.update start depth sources
  unfold Use.run at ran
  generalize (openSession env depth sources : _ × Use P S D) = outcome at opened ran
  obtain ⟨result, start⟩ := outcome
  cases result with
  | error error => exact nomatch ran
  | ok done =>
    obtain rfl := Option.some.inj ran
    replace opened : kept start.acknowledged start.state := opened done rfl
    clear ran
    induction calls generalizing start with
    | nil => exact opened
    | cons call calls ih => exact ih _ (keeps.perform opened call)

end Use

end SolidChecker.Client
