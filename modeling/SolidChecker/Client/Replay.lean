/- source: typefacts/src/session.rs -/

import SolidChecker.Client.Calls

namespace SolidChecker.Client

open List

open Foundation (Act)
open Foundation.Act (Meets)

variable {P S D : Type}

/-- `sent` are the updates `given`, one each and in order, but that a change whose path a later
update changes too may be left out. -/
inductive Trims : List (List (FileChange P S)) → List (List (FileChange P S)) → Prop
  | nil : Trims [] []
  | cons {sent given : List (FileChange P S)} {later laterGiven : List (List (FileChange P S))} :
      sent.Sublist given →
      (∀ change ∈ given, change ∈ sent ∨
        ∃ update ∈ laterGiven, ∃ newer ∈ update, newer.path = change.path) →
      Trims later laterGiven → Trims (sent :: later) (given :: laterGiven)

namespace Trims

variable {sent given : List (List (FileChange P S))}

private theorem length_eq (trims : Trims sent given) : sent.length = given.length := by
  induction trims with
  | nil => rfl
  | cons _ _ _ ih => rw [length_cons, length_cons, ih]

theorem append (trims : Trims sent given) {kept : List (List (FileChange P S))}
    (changes : List (FileChange P S))
    (thinned : List.Forall₂ (fun fewer batch => fewer.Sublist batch ∧
      ∀ change ∈ batch, change ∈ fewer ∨ change.path ∈ changes.map FileChange.path) kept sent) :
    Trims (kept ++ [changes]) (given ++ [changes]) := by
  induction trims generalizing kept with
  | nil =>
    cases thinned
    exact .cons (.refl changes) (fun change member => .inl member) .nil
  | @cons batch update later laterGiven sub covered _ ih =>
    obtain ⟨fewer, rest, ⟨thin, held⟩, tail, rfl⟩ := forall₂_cons_right_iff.mp thinned
    refine .cons (thin.trans sub) (fun change member => ?_) (ih tail)
    rcases covered change member with inside | ⟨newer, in_later, same⟩
    · rcases held change inside with stays | named
      · exact .inl stays
      · obtain ⟨newest, in_changes, path⟩ := mem_map.mp named
        exact .inr ⟨changes, by simp, newest, in_changes, path⟩
    · exact .inr ⟨newer, mem_append_left _ in_later, same⟩

end Trims

/-- The process accepted, after its open, one update per update of `acknowledged`, in order. -/
structure Holds (acknowledged : List (List (FileChange P S))) (process : Process P S) : Prop where
  opened : process.opened = true
  updates : Trims process.updates acknowledged
  generation : process.generation = 1 + acknowledged.length

/-- What survives any failure: the kept batches are those of the acknowledged updates. -/
structure Recoverable (acknowledged : List (List (FileChange P S))) (state : State P S D) :
    Prop where
  batches : Trims state.session.replayBatches acknowledged
  epoch : state.session.restartEpoch ≤ state.started

def Live (state : State P S D) (holds : Process P S → Prop) : Prop :=
  ∀ process, state.session.connection = some process → process.alive = true → holds process

/-- Between calls: a live process holds every acknowledged update, and the session is at its
generation. -/
structure Current (acknowledged : List (List (FileChange P S))) (state : State P S D) : Prop
    extends Recoverable acknowledged state where
  live : Live state fun process =>
    Holds acknowledged process ∧ state.session.generation = process.generation

/-- Of the first `started` starts and `replayed` requests of replays. -/
structure Environment.ReplaysAnswered (env : Environment P) (started replayed : ℕ) : Prop where
  unrefused : ∀ n < replayed, ∀ code, env.fate .replay n ≠ .refused code
  starts : ∀ n < started, 2 ^ 64 ≤ n + 1 → env.start n ≠ none

def State.Answered (env : Environment P) (state : State P S D) : Prop :=
  env.ReplaysAnswered state.started (state.asked .replay)

theorem aside_unanswered (env : Environment P) :
    Session.Aside fun state : State P S D => ¬ state.Answered env where
  asks state lane no answered := by
    refine no ⟨fun n less => answered.unrefused n (less.trans_le ?_), answered.starts⟩
    dsimp only [Function.update]
    split
    · rename_i same
      subst same
      exact Nat.le_succ _
    · exact le_rfl
  starts _ no answered :=
    no ⟨answered.unrefused, fun n less => answered.starts n (Nat.lt_succ_of_lt less)⟩
  turns _ _ _ _ no := no

namespace Process

theorem lifecycle_frame (process : Process P S) (request : Request P S D)
    (no_update : ∀ generation changes, request ≠ .update generation changes) :
    let after := (process.lifecycle request).2
    after.updates = process.updates ∧ after.generation = process.generation ∧
      (process.opened → after.opened) ∧ after.alive = process.alive ∧
      ((∀ generation, request ≠ .open generation) → after.opened = process.opened) := by
  cases request with
  | update generation changes => exact absurd rfl (no_update generation changes)
  | _ =>
    unfold lifecycle
    dsimp only
    split_ifs <;> simp

end Process

namespace Session

variable {pre : State P S D → Prop}
  {request : Request P S D} {env : Environment P} {lane : Lane} {state : State P S D}
  {post : Except (SessionError P) (Response P S) → State P S D → Prop}

variable (request post) in
def Replied (state : State P S D) (valid : Bool) (followUps : ℕ) :
    Except ServiceCode Answer × Process P S → Prop
  | (.error code, after) => post (.error (.service code)) (setConnection (some after) state)
  | (.ok answer, after) =>
    (answer.generation = Process.generationOf request →
      post (.ok ⟨answer, valid, followUps, after⟩) (setConnection (some after) state)) ∧
    (answer.generation ≠ Process.generationOf request → ∀ reason,
      post (.error (.invalidResponse reason)) (setConnection (some after) state))

theorem wait_meets {fate : Fate}
    (down : ∀ state, pre state → (∀ process, state.session.connection = some process →
      ∀ dead : Process P S, dead.alive = false →
        post (.error .process) (setConnection (some dead) state)))
    (closed : ∀ state, pre state → state.session.connection = none → post (.error .closed) state)
    (refused : ∀ state code, pre state → fate = .refused code → post (.error (.service code)) state)
    (answered : ∀ state process, pre state → state.session.connection = some process →
      process.alive → ∀ valid followUps, Replied request post state valid followUps
        (process.lifecycle request)) :
    Meets pre (wait request fate) post := by
  intro state holds
  unfold wait
  cases connected : state.session.connection with
  | none => exact closed state holds connected
  | some process =>
    dsimp only
    by_cases alive : process.alive
    · rw [if_pos alive]
      cases fate with
      | unsent => exact down state holds process connected _ rfl
      | lost accepted => exact down state holds process connected _ rfl
      | refused code => exact refused state code holds rfl
      | answered valid followUps =>
        have outcome := answered state process holds connected alive valid followUps
        dsimp only
        generalize process.lifecycle request = result at outcome ⊢
        obtain ⟨result, after⟩ := result
        cases result with
        | error code => exact outcome
        | ok answer =>
          dsimp only
          split
          · rename_i differs
            exact outcome.2 differs _
          · rename_i same
            exact outcome.1 (not_not.mp same)
    · rw [if_neg alive]
      have dead : process.alive = false := by simpa using alive
      have same : state = setConnection (some process) state := by
        unfold setConnection
        rw [← connected]
      rw [same]
      exact down state holds process connected process dead

theorem send_meets {post : Except (SessionError P) Fate → State P S D → Prop}
    (closed : ∀ state, pre state → state.session.connection = none → post (.error .closed) state)
    (down : ∀ state, pre state → ∀ asked, ∀ dead : Process P S, dead.alive = false →
      post (.error .process) (setConnection (some dead) { state with asked }))
    (sent : ∀ state, pre state → ∀ asked, ∀ n < asked lane,
      post (.ok (env.fate lane n)) { state with asked }) :
    Meets pre (send env lane) post := by
  intro state holds
  unfold send
  cases connected : state.session.connection with
  | none => exact closed state holds connected
  | some process =>
    dsimp only
    have next := sent state holds (Function.update state.asked lane (state.asked lane + 1))
      (Function.update state.asked lane (state.asked lane + 1) lane - 1) (by simp)
    split
    · exact down state holds _ _ rfl
    · exact next

theorem exchangeOnce_meets
    (stable : ∀ state asked, pre state → pre { state with asked })
    (closed : ∀ state, pre state → state.session.connection = none → post (.error .closed) state)
    (down : ∀ state, pre state → ∀ dead : Process P S, dead.alive = false →
      post (.error .process) (setConnection (some dead) state))
    (refused : ∀ state code, pre state → (∃ n < state.asked lane, env.fate lane n = .refused code) →
      post (.error (.service code)) state)
    (answered : ∀ state process, pre state → state.session.connection = some process →
      process.alive → ∀ valid followUps, Replied request post state valid followUps
        (process.lifecycle request)) :
    Meets pre (exchangeOnce env lane request) post := by
  refine .bind (fun result state => match result with
    | .ok fate => pre state ∧ ∃ n < state.asked lane, env.fate lane n = fate
    | .error error => post (.error error) state)
    (send_meets closed (fun state holds asked dead => down _ (stable state asked holds) dead)
      fun state holds asked n less => ⟨stable state asked holds, n, less, rfl⟩)
    (fun _ _ failed => failed) fun fate => ?_
  refine wait_meets (fun state holds _ _ => down state holds.1)
    (fun state holds => closed state holds.1) (fun state code holds same => ?_)
    fun state process holds => answered state process holds.1
  obtain ⟨before, n, less, drawn⟩ := holds
  exact refused state code before ⟨n, less, drawn.trans same⟩

variable {acknowledged : List (List (FileChange P S))}

def Down (acknowledged : List (List (FileChange P S))) (state : State P S D) : Prop :=
  Recoverable acknowledged state ∧ Live state fun _ => False

theorem Down.current (down : Down acknowledged state) : Current acknowledged state :=
  ⟨down.1, fun process connected alive => (down.2 process connected alive).elim⟩

theorem down_dead (recoverable : Recoverable acknowledged state) {dead : Process P S}
    (gone : dead.alive = false) : Down acknowledged (setConnection (some dead) state) := by
  refine ⟨⟨recoverable.1, recoverable.2⟩, fun process connected alive => ?_⟩
  obtain rfl : dead = process := Option.some.inj connected
  exact absurd (gone.symm.trans alive) Bool.false_ne_true

private theorem down_disconnected (recoverable : Recoverable acknowledged state)
    (gone : state.session.connection = none) : Down acknowledged state :=
  ⟨recoverable, fun _ connected => nomatch gone.symm.trans connected⟩

theorem exchangeOnce_current
    (no_update : ∀ generation changes, request ≠ .update generation changes) :
    Meets (Current acknowledged) (exchangeOnce env lane request)
      (Answers (Current acknowledged) fun response _ => Holds acknowledged response.process) := by
  refine exchangeOnce_meets (fun state asked current => ⟨⟨current.1.1, current.1.2⟩,
    current.live⟩) (fun state current _ => ⟨current, nofun⟩)
    (fun state current dead gone => ⟨(down_dead current.toRecoverable gone).current, nofun⟩)
    (fun state code current _ => ⟨current, nofun⟩) fun state process current connected alive
    valid followUps => ?_
  obtain ⟨held, same⟩ := current.live process connected alive
  obtain ⟨updates, generation, opened, -⟩ := process.lifecycle_frame request no_update
  generalize process.lifecycle request = outcome at updates generation opened ⊢
  obtain ⟨result, after⟩ := outcome
  have holds : Holds acknowledged after :=
    ⟨opened held.opened, updates ▸ held.updates, generation.trans held.generation⟩
  have moved : Current acknowledged (setConnection (some after) state) := by
    refine ⟨⟨current.1.1, current.1.2⟩, fun other now _ => ?_⟩
    obtain rfl : after = other := Option.some.inj now
    exact ⟨holds, same.trans generation.symm⟩
  cases result with
  | error code => exact ⟨moved, nofun⟩
  | ok answer =>
    refine ⟨fun _ => ⟨moved, fun response told => ?_⟩, fun _ reason => ⟨moved, nofun⟩⟩
    cases told
    exact holds

/-- The session is at `generation`, and so is a live process, which meets `holds`. -/
structure At (acknowledged : List (List (FileChange P S))) (generation : ℕ)
    (holds : Process P S → Prop) (state : State P S D) : Prop
    extends Recoverable acknowledged state where
  here : state.session.generation = generation
  live : Live state fun process => holds process ∧ process.generation = generation

structure Accepted (acknowledged : List (List (FileChange P S))) (generation : ℕ)
    (changes : List (FileChange P S)) (holds : Process P S → Prop) (state : State P S D) : Prop
    extends Recoverable acknowledged state where
  here : state.session.generation = generation
  live : Live state fun process => ∃ earlier : Process P S, holds earlier ∧
    earlier.generation = generation ∧ process.generation = generation + 1 ∧
    process.opened = earlier.opened ∧
    process.updates = if earlier.opened then earlier.updates ++ [changes] else earlier.updates

/-- What an update request for the next generation comes to: it is accepted, or there is no live
process left, or it was refused and nothing moved. -/
def UpdateSent (acknowledged : List (List (FileChange P S))) (generation : ℕ)
    (changes : List (FileChange P S)) (holds : Process P S → Prop)
    (refusal : State P S D → ServiceCode → Prop)
    (result : Except (SessionError P) (Response P S)) (state : State P S D) : Prop :=
  match result with
  | .ok _ => Accepted acknowledged generation changes holds state
  | .error error => Down acknowledged state ∨
      At acknowledged generation holds state ∧ ∃ code, error = .service code ∧ refusal state code

variable {changes : List (FileChange P S)} {holds : Process P S → Prop}

private theorem replied_update {generation : ℕ} {refusal : State P S D → ServiceCode → Prop}
    {process : Process P S} (here : At acknowledged generation holds state)
    (connected : state.session.connection = some process) (alive : process.alive) (valid : Bool)
    (followUps : ℕ) : Replied (.update (generation + 1) changes)
      (UpdateSent acknowledged generation changes holds refusal) state valid followUps
      (process.lifecycle (.update (generation + 1) changes : Request P S D)) := by
  obtain ⟨held, level⟩ := here.live process connected alive
  have accepted : process.lifecycle (.update (generation + 1) changes : Request P S D) =
      (.ok ⟨generation + 1, process.token⟩,
        { process with
          generation := generation + 1
          updates := if process.opened then process.updates ++ [changes]
            else process.updates }) := by
    simp only [Process.lifecycle, level, ne_eq, not_true, if_false]
  rw [accepted]
  refine ⟨fun _ => ⟨⟨here.1.1, here.1.2⟩, here.here, fun other now _ => ?_⟩,
    fun differs => absurd rfl differs⟩
  cases now
  exact ⟨process, held, level, rfl, rfl, rfl⟩

theorem wait_update {generation : ℕ} (fate : Fate) : Meets (At acknowledged generation holds)
      (wait (.update (generation + 1) changes) fate : Step P S D (Response P S))
      (UpdateSent acknowledged generation changes holds fun _ _ => True) :=
  wait_meets (fun _ here _ _ _ gone => .inl (down_dead here.toRecoverable gone))
    (fun _ here gone => .inl (down_disconnected here.toRecoverable gone))
    (fun _ code here _ => .inr ⟨here, code, rfl, trivial⟩)
    fun _ _ here connected alive => replied_update here connected alive

private theorem exchangeOnce_update {generation : ℕ} : Meets (At acknowledged generation holds)
      (exchangeOnce env lane (.update (generation + 1) changes) : Step P S D (Response P S))
      (UpdateSent acknowledged generation changes holds fun state code =>
        ∃ n < state.asked lane, env.fate lane n = .refused code) :=
  exchangeOnce_meets (fun _ _ here => ⟨⟨here.1.1, here.1.2⟩, here.here, here.live⟩)
    (fun _ here gone => .inl (down_disconnected here.toRecoverable gone))
    (fun _ here _ gone => .inl (down_dead here.toRecoverable gone))
    (fun _ code here drawn => .inr ⟨here, code, rfl, drawn⟩)
    fun _ _ here connected alive => replied_update here connected alive

private theorem spawn_meets : Meets (Recoverable acknowledged) (spawn env : Step P S D PUnit)
    (Outcome (fun state => Recoverable acknowledged state ∧ state.session.connection = some .started ∧
      ∃ n < state.started, env.start n = none ∧ state.session.restartEpoch ≤ n)
      (Down acknowledged)) := by
  intro state recoverable
  have epoch := recoverable.epoch
  unfold spawn
  cases failed : env.start state.started with
  | some error =>
    refine down_disconnected ⟨recoverable.batches, ?_⟩ rfl
    exact Nat.le_succ_of_le epoch
  | none => exact ⟨⟨recoverable.batches, Nat.le_succ_of_le epoch⟩, rfl, state.started,
      Nat.lt_succ_self _, failed, epoch⟩

theorem exchangeOnce_open {lane : Lane} :
    Meets (At acknowledged 1 fun process => process.updates = [])
      (exchangeOnce env lane (.open 1) : Step P S D (Response P S))
      (Outcome (At acknowledged 1 fun process => process.opened ∧ process.updates = [])
        fun state => Down acknowledged state ∨
          At acknowledged 1 (fun process => process.updates = []) state ∧
            ∃ code, ∃ n < state.asked lane, env.fate lane n = .refused code) := by
  refine exchangeOnce_meets
    (fun state asked here => ⟨⟨here.1.1, here.1.2⟩, here.here, here.live⟩)
    (fun state here gone => .inl (down_disconnected here.toRecoverable gone))
    (fun state here dead gone => .inl (down_dead here.toRecoverable gone))
    (fun state code here drawn => .inr ⟨here, code, drawn⟩)
    fun state process here connected alive valid followUps => ?_
  obtain ⟨none_yet, level⟩ := here.live process connected alive
  have accepted : process.lifecycle (.open 1 : Request P S D) =
      (.ok ⟨1, process.token⟩, { process with opened := true }) := by
    simp only [Process.lifecycle, level, ne_eq, not_true, if_false]
  rw [accepted]
  refine ⟨fun _ => ⟨⟨here.1.1, here.1.2⟩, here.here, fun other now _ => ?_⟩,
    fun differs => absurd rfl differs⟩
  cases now
  exact ⟨⟨rfl, none_yet⟩, level⟩

private theorem replay_meets (env : Environment P) (batches done : List (List (FileChange P S))) :
    Meets (At acknowledged (1 + done.length) fun process =>
        process.opened ∧ process.updates = done)
      (replay env batches : Step P S D PUnit)
      (Outcome (At acknowledged (1 + (done ++ batches).length)
        fun process => process.opened ∧ process.updates = done ++ batches)
        fun state => state.Answered env → Down acknowledged state) := by
  induction batches generalizing done with
  | nil => exact .pure fun state here => by rwa [append_nil]
  | cons changes batches ih =>
    refine .read_bind fun generation => ?_
    refine .bind (Outcome (Accepted acknowledged (1 + done.length) changes
      fun process => process.opened ∧ process.updates = done)
      fun state => state.Answered env → Down acknowledged state) (fun state here => ?_)
      (fun _ _ down => down) fun response => ?_
    · obtain ⟨here, level⟩ := here
      obtain rfl : 1 + done.length = generation := here.here.symm.trans level
      have outcome : UpdateSent acknowledged (1 + done.length) changes _
          (fun state code => ∃ n < state.asked .replay, env.fate .replay n = .refused code) _ _ :=
        exchangeOnce_update state here
      generalize (exchangeOnce env .replay (.update (1 + done.length + 1) changes)) state = reply at outcome ⊢
      obtain ⟨result, after⟩ := reply
      cases result with
      | ok response => exact outcome
      | error error =>
        rcases outcome with down | ⟨-, code, -, n, less, refused⟩
        · exact fun _ => down
        · exact fun answered => absurd refused (answered.unrefused n less code)
    · refine .modify_bind _ (fun state sent => ?_)
        ((ih (done ++ [changes])).relax fun result state outcome => ?_)
      · refine ⟨⟨sent.1.1, sent.1.2⟩, ?_, fun process connected alive => ?_⟩
        · show state.session.generation + 1 = _
          rw [sent.here, length_append, length_singleton, Nat.add_assoc]
        · obtain ⟨earlier, ⟨opened, updates⟩, -, generation, still, appended⟩ :=
            sent.live process connected alive
          rw [if_pos opened, updates] at appended
          refine ⟨⟨still.trans opened, appended⟩, ?_⟩
          rw [generation, length_append, length_singleton, Nat.add_assoc]
      · cases result with
        | ok done => rwa [append_assoc] at outcome
        | error error => exact outcome

theorem restart_meets : Meets (Recoverable acknowledged) (restartAndReplay env : Step P S D PUnit)
    fun _ state => state.Answered env → Current acknowledged state := by
  refine .bind _ spawn_meets (fun _ _ down _ => down.current) fun _ => ?_
  refine .bind (Outcome (fun state => Recoverable acknowledged state ∧
    state.session.connection = some .started) fun state => ¬ state.Answered env) (fun state spawned => ?_)
    (fun _ _ no answered => absurd answered no) fun _ => ?_
  · obtain ⟨recoverable, connected, n, less, started, behind⟩ := spawned
    unfold bumpEpoch
    by_cases room : state.session.restartEpoch + 1 < 2 ^ 64
    · rw [if_pos room]
      exact ⟨⟨recoverable.1, Nat.succ_le_of_lt (behind.trans_lt less)⟩, connected⟩
    · rw [if_neg room]
      exact fun answered => answered.starts n less (by omega) started
  refine .modify_bind (At acknowledged 1 fun process => process.updates = [])
    (fun state fresh => ?_) ?_
  · refine ⟨⟨fresh.1.1, fresh.1.2⟩, rfl, fun process connected _ => ?_⟩
    cases fresh.2.symm.trans connected
    exact ⟨rfl, rfl⟩
  refine .modify_bind (At acknowledged 1 fun process => process.updates = [])
    (fun state here => ⟨⟨here.1.1, here.1.2⟩, here.here, here.live⟩) ?_
  refine .bind _ exchangeOnce_open (fun error state failed => ?_) fun _ => ?_
  · rcases failed with down | ⟨-, code, n, less, refused⟩
    · exact fun _ => down.current
    · exact fun answered => absurd refused (answered.unrefused n less code)
  refine .read_bind fun batches state reading => ?_
  have replayed := replay_meets env batches [] state reading.1
  have trims : Trims batches acknowledged := reading.2 ▸ reading.1.batches
  generalize (replay env batches) state = outcome at replayed ⊢
  obtain ⟨result, after⟩ := outcome
  cases result with
  | error error => exact fun answered => (replayed answered).current
  | ok done =>
    refine fun _ => ⟨replayed.toRecoverable, fun process connected alive => ?_⟩
    obtain ⟨⟨opened, updates⟩, level⟩ := replayed.live process connected alive
    rw [nil_append] at updates level
    exact ⟨⟨opened, updates ▸ trims, level.trans (by rw [trims.length_eq])⟩,
      replayed.here.trans (by rw [level, nil_append])⟩

theorem conduct : Conduct env
    (fun state : State P S D => state.Answered env → Current acknowledged state)
    (fun response state => state.Answered env → Holds acknowledged response.process)
    fun process state => state.Answered env → Holds acknowledged process where
  once _ _ reading := answers_under ((aside_unanswered env).exchangeOnce env _ _)
    (exchangeOnce_current reading.1)
  restart := ((restart_meets.strengthen (fun _ current => current.toRecoverable)).under ((aside_unanswered env).restart env)).relax
    fun _ _ current answered => current answered answered
  retains _ _ _ current answered := ⟨⟨(current answered).1.1, (current answered).1.2⟩,
    (current answered).live⟩
  tells _ _ holds := holds
  lasts _ := ⟨fun _ _ holds answered => holds (by_contra fun no =>
    (aside_unanswered env).asks _ _ no answered), fun _ holds answered => holds (by_contra fun no =>
      (aside_unanswered env).starts _ no answered), fun _ _ _ _ holds => holds⟩

end Session

end SolidChecker.Client
