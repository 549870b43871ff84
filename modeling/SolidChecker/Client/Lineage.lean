/- source: typefacts/src/session.rs -/

import SolidChecker.Client.Acknowledged

namespace SolidChecker.Client

open Foundation (Act)
open Foundation.Act (Meets Stays)

variable {P S D : Type}

def Process.seen (process : Process P S) : Bool × List (List (FileChange P S)) × ℕ :=
  (process.opened, process.updates, process.generation)

def Process.advanced (process : Process P S) (changes : List (FileChange P S)) :
    Bool × List (List (FileChange P S)) × ℕ :=
  (process.opened, if process.opened then process.updates ++ [changes] else process.updates,
    process.generation + 1)

namespace Process

variable {request : Request P S D}

private theorem lifecycle_reading (process : Process P S) (reading : request.Reading) :
    (process.lifecycle request).2.seen = process.seen ∧
      (process.lifecycle request).2.alive = process.alive := by
  obtain ⟨updates, generation, -, alive, opened⟩ := process.lifecycle_frame request reading.1
  exact ⟨by rw [seen, seen, updates, generation, opened reading.2], alive⟩

private theorem lifecycle_update (process : Process P S) (changes : List (FileChange P S)) :
    process.lifecycle (.update (process.generation + 1) changes : Request P S D) =
      (.ok ⟨process.generation + 1, process.token⟩, { process with
          generation := process.generation + 1
          updates := if process.opened then process.updates ++ [changes] else process.updates }) := by
  simp only [lifecycle, ne_eq, not_true, if_false]

end Process

def State.now (state : State P S D) : Option (ℕ × Process P S) :=
  (state.session.connection.filter Process.alive).map fun process => (state.started, process)

variable {state : State P S D}

private theorem State.now_eq_some {number : ℕ} {process : Process P S} :
    state.now = some (number, process) ↔ state.session.connection = some process ∧
      process.alive ∧ state.started = number := by
  unfold State.now
  rw [Option.map_eq_some_iff]
  constructor
  · rintro ⟨other, kept, same⟩
    obtain ⟨connected, alive⟩ := Option.filter_eq_some_iff.mp kept
    cases same
    exact ⟨connected, alive, rfl⟩
  · rintro ⟨connected, alive, rfl⟩
    exact ⟨process, Option.filter_eq_some_iff.mpr ⟨connected, alive⟩, rfl⟩

/-- The session is at the generation of its live process, of the first 2^64, and counts no more
restarts than starts. -/
structure Level (state : State P S D) : Prop where
  synced : Live state fun process =>
    state.started < 2 ^ 64 → state.session.generation = process.generation
  epoch : state.session.restartEpoch ≤ state.started

/-- Since `origin` the epoch has moved, or the live process is still the same and saw nothing. -/
def Follows (origin state : State P S D) : Prop :=
  origin.session.restartEpoch < state.session.restartEpoch ∨
    (state.session.restartEpoch = origin.session.restartEpoch ∧
      state.session.generation = origin.session.generation ∧
      ∀ number process, state.now = some (number, process) → number < 2 ^ 64 →
        ∃ earlier, origin.now = some (number, earlier) ∧ process.seen = earlier.seen)

structure Reads (origin state : State P S D) : Prop extends Level state where
  follows : Follows origin state

/-- A call that sent an update: the epoch has moved, or the process saw that update and no more. -/
def Lands (changes : List (FileChange P S)) (origin state : State P S D) : Prop :=
  origin.session.restartEpoch < state.session.restartEpoch ∨
    (state.session.restartEpoch = origin.session.restartEpoch ∧
      ∀ number process, state.now = some (number, process) → number < 2 ^ 64 →
        ∃ earlier, origin.now = some (number, earlier) ∧ process.seen = earlier.advanced changes)

variable {origin : State P S D}

theorem Follows.refl (state : State P S D) : Follows state state :=
  .inr ⟨rfl, rfl, fun _ process here _ => ⟨process, here, rfl⟩⟩

private theorem Follows.epoch_le (follows : Follows origin state) :
    origin.session.restartEpoch ≤ state.session.restartEpoch :=
  follows.elim Nat.le_of_lt fun same => same.1.ge

private theorem Follows.down {state after : State P S D} (follows : Follows origin state)
    (epoch : after.session.restartEpoch = state.session.restartEpoch)
    (generation : after.session.generation = state.session.generation)
    (gone : Live after fun _ => 2 ^ 64 ≤ after.started) : Follows origin after := by
  rcases follows with moved | ⟨same, level, -⟩
  · exact .inl (moved.trans_eq epoch.symm)
  · refine .inr ⟨epoch.trans same, generation.trans level, fun number process here few => ?_⟩
    obtain ⟨connected, alive, rfl⟩ := State.now_eq_some.mp here
    exact absurd few (not_lt.mpr (gone process connected alive))

private theorem Reads.turn {connection : Option (Process P S)} (reads : Reads origin state)
    (gone : Live (Session.setConnection connection state) fun _ => 2 ^ 64 ≤ state.started) :
    Reads origin (Session.setConnection connection state) :=
  ⟨⟨fun process connected alive few => absurd few (not_lt.mpr (gone process connected alive)),
    reads.epoch⟩, reads.follows.down rfl rfl gone⟩

private theorem Reads.down {dead : Process P S} (reads : Reads origin state) (gone : dead.alive = false) :
    Reads origin (Session.setConnection (some dead) state) := by
  refine reads.turn fun process connected alive => ?_
  obtain rfl : dead = process := Option.some.inj connected
  exact absurd (gone.symm.trans alive) Bool.false_ne_true

private theorem advanced_congr {process earlier : Process P S} (same : process.seen = earlier.seen)
    (changes : List (FileChange P S)) : process.advanced changes = earlier.advanced changes := by
  obtain ⟨opened, updates, generation⟩ : process.opened = earlier.opened ∧
    process.updates = earlier.updates ∧ process.generation = earlier.generation := by
    simpa [Process.seen] using same
  rw [Process.advanced, Process.advanced, opened, updates, generation]

namespace Session

variable {env : Environment P} {lane : Lane} {generation : ℕ} {request : Request P S D}

private theorem exchangeOnce_reads (reading : request.Reading) :
    Meets (Reads origin) (exchangeOnce env lane request) (Answers (Reads origin)
      fun response state => state.now = some (state.started, response.process)) := by
  refine exchangeOnce_meets (fun state asked reads => ⟨⟨reads.synced, reads.epoch⟩, reads.follows⟩)
    (fun state reads _ => ⟨reads, nofun⟩) (fun state reads dead gone => ⟨reads.down gone, nofun⟩)
    (fun state code reads _ => ⟨reads, nofun⟩) fun state process reads connected alive valid
      followUps => ?_
  obtain ⟨seen, living⟩ := process.lifecycle_reading reading
  generalize process.lifecycle request = outcome at seen living ⊢
  obtain ⟨result, after⟩ := outcome
  have level : after.generation = process.generation := congrArg (fun view => view.2.2) seen
  have moved : Reads origin (setConnection (some after) state) := by
    refine ⟨⟨fun other now _ => ?_, reads.epoch⟩, ?_⟩
    · obtain rfl : after = other := Option.some.inj now
      exact fun few => (reads.synced process connected alive few).trans level.symm
    · refine reads.follows.imp id fun ⟨epoch, level, same⟩ =>
        ⟨epoch, level, fun number other now few => ?_⟩
      obtain ⟨now, -, count⟩ := State.now_eq_some.mp now
      obtain rfl : after = other := Option.some.inj now
      obtain ⟨earlier, there, kept⟩ :=
        same number process (State.now_eq_some.mpr ⟨connected, alive, count⟩) few
      exact ⟨earlier, there, seen.trans kept⟩
  cases result with
  | error code => exact ⟨moved, nofun⟩
  | ok answer =>
    refine ⟨fun _ => ⟨moved, fun response told => ?_⟩, fun _ reason => ⟨moved, nofun⟩⟩
    cases told
    exact State.now_eq_some.mpr ⟨rfl, living.trans alive, rfl⟩

private theorem exchangeOnce_level
    (no_update : ∀ generation changes, request ≠ .update generation changes) :
    Stays Level (exchangeOnce env lane request) := by
  refine exchangeOnce_meets (fun state asked level => ⟨level.synced, level.epoch⟩)
    (fun state level _ => level) (fun state level dead gone => ?_)
    (fun state code level _ => level) fun state process level connected alive valid followUps => ?_
  · exact (Reads.down ⟨level, Follows.refl state⟩ gone).toLevel
  obtain ⟨-, generation, -⟩ := process.lifecycle_frame request no_update
  generalize process.lifecycle request = outcome at generation ⊢
  obtain ⟨result, after⟩ := outcome
  have moved : Level (setConnection (some after) state) := by
    refine ⟨fun other now _ => ?_, level.epoch⟩
    obtain rfl : after = other := Option.some.inj now
    exact fun few => (level.synced process connected alive few).trans generation.symm
  cases result with
  | error code => exact moved
  | ok answer => exact ⟨fun _ => moved, fun _ _ => moved⟩

def Beyond (origin state : State P S D) : Prop :=
  Level state ∧ origin.session.restartEpoch < state.session.restartEpoch

private theorem Beyond.reads {state : State P S D} (beyond : Beyond origin state) : Reads origin state :=
  ⟨beyond.1, .inl beyond.2⟩

structure Sent (changes : List (FileChange P S)) (origin state : State P S D) : Prop where
  ahead : Live state fun process =>
    state.started < 2 ^ 64 → process.generation = state.session.generation + 1
  epoch : state.session.restartEpoch ≤ state.started
  lands : Lands changes origin state

variable {changes : List (FileChange P S)}

private theorem wait_advances (fate : Fate) :
    Meets (fun state => Reads origin state ∧ state.session.generation = generation)
      (wait (.update (generation + 1) changes) fate)
      (Outcome (Sent changes origin) (Reads origin)) := by
  refine wait_meets (fun state reads _ _ dead gone => reads.1.down gone)
    (fun state reads _ => reads.1) (fun state code reads _ => reads.1)
    fun state process reads connected alive valid followUps => ?_
  obtain ⟨reads, rfl⟩ := reads
  rcases Nat.lt_or_ge state.started (2 ^ 64) with few | many
  · have level := reads.synced process connected alive few
    rw [level, process.lifecycle_update changes]
    refine ⟨fun _ => ⟨fun other now _ _ => ?_, reads.epoch, ?_⟩, fun differs => absurd rfl differs⟩
    · cases now
      exact congrArg (· + 1) level.symm
    · refine reads.follows.imp id fun ⟨epoch, _, same⟩ => ⟨epoch, fun number other now _ => ?_⟩
      obtain ⟨here, -, rfl⟩ := State.now_eq_some.mp now
      cases here
      obtain ⟨earlier, there, kept⟩ :=
        same _ process (State.now_eq_some.mpr ⟨connected, alive, rfl⟩) few
      exact ⟨earlier, there, advanced_congr kept changes⟩
  · -- past the bound nothing is said of the process, so it does not matter what it answers
    have turned : ∀ after, Reads origin (setConnection (some after) state) := fun _ =>
      reads.turn fun _ _ _ => many
    generalize process.lifecycle (.update (state.session.generation + 1) changes) = outcome
    obtain ⟨result, after⟩ := outcome
    cases result with
    | error code => exact turned after
    | ok answer =>
      refine ⟨fun _ => ⟨fun _ _ _ few => absurd few (not_lt.mpr many), reads.epoch, ?_⟩,
        fun _ _ => turned after⟩
      refine (turned after).follows.imp id fun ⟨epoch, _, _⟩ => ⟨epoch, fun _ _ now few => ?_⟩
      exact absurd ((State.now_eq_some.mp now).2.2 ▸ few) (not_lt.mpr many)

private theorem send_reads : Meets (fun state => Reads origin state ∧ state.session.generation = generation)
      (send env lane)
      (Outcome (fun state => Reads origin state ∧ state.session.generation = generation)
        (Reads origin)) := by
  refine send_meets (fun state reads _ => reads.1) (fun state reads asked dead gone => ?_)
    fun state reads asked n _ => ⟨⟨⟨reads.1.synced, reads.1.epoch⟩, reads.1.follows⟩, reads.2⟩
  have same : Reads origin { state with asked } :=
    ⟨⟨reads.1.synced, reads.1.epoch⟩, reads.1.follows⟩
  exact same.down gone

private theorem exchangeOnce_advances (env : Environment P) (lane : Lane)
    : Meets (fun state => Reads origin state ∧ state.session.generation = generation)
      (exchangeOnce env lane (.update (generation + 1) changes))
      (Outcome (Sent changes origin) (Reads origin)) :=
  .bind _ send_reads (fun _ _ reads => reads) fun fate => wait_advances fate

private theorem exchangeOnce_epoch (env : Environment P) (lane : Lane) (request : Request P S D)
    (epoch : ℕ) :
    Stays (fun state => state.session.restartEpoch = epoch) (exchangeOnce env lane request) := by
  refine exchangeOnce_meets (fun _ _ same => same) (fun _ same _ => same)
    (fun _ same _ _ => same) (fun _ _ same _ => same) fun state process same _ _ _ _ => ?_
  obtain ⟨result, after⟩ := process.lifecycle request
  cases result with
  | error code => exact same
  | ok answer => exact ⟨fun _ => same, fun _ _ => same⟩

private theorem replay_beyond (batches : List (List (FileChange P S))) :
    Stays (Beyond origin) (replay env batches) := by
  induction batches with
  | nil => exact Meets.pure fun _ beyond => beyond
  | cons changes batches ih =>
    refine Meets.read_bind fun generation => ?_
    refine .bind (Outcome (fun state => Sent changes origin state ∧
      origin.session.restartEpoch < state.session.restartEpoch) (Beyond origin)) ?_
      (fun _ _ beyond => beyond) fun _ => ?_
    · intro state ⟨beyond, level⟩
      have sent : Outcome (Sent changes origin) (Reads origin) _ _ :=
        exchangeOnce_advances env .replay state ⟨beyond.reads, level⟩
      have epoch := exchangeOnce_epoch env .replay (.update (generation + 1) changes) _ state rfl
      have later := beyond.2.trans_eq epoch.symm
      generalize (exchangeOnce env .replay (.update (generation + 1) changes)) state = reply at sent later ⊢
      obtain ⟨result, after⟩ := reply
      cases result with
      | ok response => exact ⟨sent, later⟩
      | error error => exact ⟨Reads.toLevel sent, later⟩
    · refine .modify_bind (Beyond origin) (fun state sent => ?_) ih
      refine ⟨⟨fun process connected alive => ?_, sent.1.epoch⟩, sent.2⟩
      exact fun few => (sent.1.ahead process connected alive few).symm

private theorem restart_reads : Meets (Reads origin) (restartAndReplay env)
    fun _ state => Reads origin state := by
  refine .bind (Outcome (fun state => state.session.connection = some .started ∧
    Reads origin (setConnection none state) ∧ state.session.restartEpoch < state.started)
    (Reads origin)) (fun state reads => ?_) (fun _ _ reads => reads) fun _ => ?_
  · have down : Reads origin { setConnection none state with started := state.started + 1 } :=
      ⟨⟨nofun, Nat.le_succ_of_le reads.epoch⟩, reads.follows.down rfl rfl nofun⟩
    unfold spawn
    cases env.start state.started with
    | some error => exact down
    | none => exact ⟨rfl, down, Nat.lt_succ_of_le reads.epoch⟩
  refine .bind (Outcome (fun state => state.session.connection = some .started ∧
    origin.session.restartEpoch < state.session.restartEpoch ∧
    state.session.restartEpoch ≤ state.started) (Reads origin)) (fun state spawned => ?_)
    (fun _ _ reads => reads) fun _ => ?_
  · obtain ⟨connected, reads, behind⟩ := spawned
    unfold bumpEpoch
    by_cases room : state.session.restartEpoch + 1 < 2 ^ 64
    · rw [if_pos room]
      exact ⟨connected, Nat.lt_succ_of_le reads.follows.epoch_le, behind⟩
    · rw [if_neg room]
      have many : 2 ^ 64 ≤ state.started := (not_lt.mp room).trans behind
      exact ⟨⟨fun _ _ _ few => absurd few (not_lt.mpr many), reads.epoch⟩,
        reads.follows.down rfl rfl fun _ _ _ => many⟩
  refine .modify_bind (Beyond origin) (fun state fresh => ?_) ?_
  · refine ⟨⟨fun process connected _ => ?_, fresh.2.2⟩, fresh.2.1⟩
    cases fresh.1.symm.trans connected
    exact fun _ => rfl
  refine .modify_bind (Beyond origin)
    (fun state beyond => ⟨⟨beyond.1.synced, beyond.1.epoch⟩, beyond.2⟩) ?_
  refine .bind (fun _ => Beyond origin) (fun state beyond => ?_) (fun _ _ beyond => beyond.reads)
    fun _ => ?_
  · exact ⟨exchangeOnce_level (by exact nofun) state beyond.1,
      beyond.2.trans_eq (exchangeOnce_epoch env .replay _ _ state rfl).symm⟩
  refine .read_bind fun batches => ?_
  exact (replay_beyond batches).weaken (fun _ reading => reading.1) fun _ _ beyond => beyond.reads

theorem reads_conduct (env : Environment P) : Conduct env (Reads origin : State P S D → Prop)
    (fun response state => state.now = some (state.started, response.process)) fun _ _ => True where
  once _ _ reading := exchangeOnce_reads reading
  restart := restart_reads
  retains _ _ _ reads := ⟨⟨reads.synced, reads.epoch⟩, reads.follows⟩
  tells _ _ _ := trivial
  lasts _ := aside_true

private theorem restart_level : Stays Level (restartAndReplay env : Step P S D PUnit) :=
  fun state level => (restart_reads state ⟨level, .refl state⟩).toLevel

section

variable [DecidableEq P]

private theorem commit_lands : Meets (Sent changes origin) (commitUpdate changes)
      (Outcome (fun state => Level state ∧ Lands changes origin state) (Reads origin)) := by
  intro state sent
  obtain ⟨-, counted, connection, epoch⟩ := supersede_spec changes
    { state.session with generation := state.session.generation + 1 }
  refine ⟨⟨fun process connected alive => ?_, epoch.le.trans sent.epoch⟩, ?_⟩
  · exact fun few => counted.trans (sent.ahead process (connection.symm.trans connected) alive few).symm
  · refine sent.lands.imp (fun moved => moved.trans_eq epoch.symm) fun ⟨still, same⟩ =>
      ⟨epoch.trans still, fun number process now few => same number process ?_ few⟩
    obtain ⟨connected, alive, count⟩ := State.now_eq_some.mp now
    exact State.now_eq_some.mpr ⟨connection.symm.trans connected, alive, count⟩

theorem updating_lands (env : Environment P) (changes : List (FileChange P S)) :
    Updating env changes (Reads origin : State P S D → Prop)
      (fun generation state => Reads origin state ∧ state.session.generation = generation)
      (Sent changes origin) fun state => Level state ∧ Lands changes origin state where
  sends _ := send_reads
  waits _ fate := wait_advances fate
  restart := restart_reads
  commits := commit_lands

end

end Session

namespace Use

variable [LinearOrder P] {env : Environment P}

private theorem keeps_level : Keeps env (fun _ => Level : _ → State P S D → Prop) where
  updates _ depth changes := by
    intro state level
    have updated := (Session.updating_lands env changes).update depth state ⟨level, .refl state⟩
    generalize Session.update env depth changes state = outcome at updated ⊢
    obtain ⟨result, after⟩ := outcome
    cases result with
    | error error => exact Reads.toLevel updated
    | ok done =>
      split at updated
      · exact Reads.toLevel updated
      · exact And.left updated
  reads _ := ⟨fun _ _ => True, fun _ _ => True, fun _ _ reading => (Session.exchangeOnce_level
    reading.1).relax fun _ _ level => ⟨level, fun _ _ => trivial⟩,
    Session.restart_level, fun _ _ _ level => ⟨level.synced, level.epoch⟩, fun _ _ _ => trivial,
    fun _ => Session.aside_true⟩
  closes _ _ level := ⟨nofun, level.epoch⟩

theorem run_level [DecidableEq D] {depth : ℕ} {sources : List (FileChange P S)}
    {calls : List (Call P S D)} {use : Use P S D} (ran : run env depth sources calls = some use) :
    Level use.state := by
  refine keeps_level.run ?_ ran
  refine .bind (fun _ => Level) ?_ (fun _ _ _ => trivial) fun _ => ?_
  · rintro state rfl
    unfold Session.spawn
    cases env.start Session.unopened.started with
    | some error => exact ⟨nofun, Nat.zero_le _⟩
    | none =>
      refine ⟨fun process connected _ => ?_, Nat.zero_le _⟩
      cases connected
      exact fun _ => rfl
  · have once : Meets Level (Session.exchangeOnce env .ordinary (.open 1) :
        Step P S D (Response P S)) (Session.Answers Level fun _ _ => True) :=
      (Session.exchangeOnce_level (by exact nofun)).relax
        fun _ _ level => ⟨level, fun _ _ => trivial⟩
    exact Session.outcome_of_keeps ((Session.exchange_answers once
      (Session.restart_level)).relax fun _ _ outcome => outcome.1)
      fun _ _ => trivial

end Use

end SolidChecker.Client
