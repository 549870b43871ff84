/- source: typefacts/src/session.rs -/

import Mathlib.Data.Finmap
import Mathlib.Data.Finset.Sort
import SolidChecker.Foundation.Act
import SolidChecker.Foundation.Grouping
import SolidChecker.Client.Process

namespace SolidChecker.Client

open Foundation (Act)
open Foundation.Grouping (sortByKey)

inductive Fate
  /-- The process is gone before the request could be written. -/
  | unsent
  /-- The process dies before it answers, with the request accepted or not. -/
  | lost (accepted : Bool)
  | refused (code : ServiceCode)
  /-- The process answers as its lifecycle says. `valid`: whether the content passes the client's
  checks; `followUps`: how many symbol requests closing an analyze answer takes. -/
  | answered (valid : Bool) (followUps : ℕ)

inductive Lane
  | ordinary
  | replay
  deriving DecidableEq

inductive InvalidResponse (P : Type)
  | identity (answered asked : ℕ)
  | content
  | duplicateGroup (path : P)
  | foreignLocation (path foreign : P)

inductive SessionError (P : Type)
  | spawn
  | handshake
  | process
  | service (code : ServiceCode)
  | closed
  | invalidResponse (reason : InvalidResponse P)
  | producerProvenance
  /-- The call stack is used up; the client itself aborts. -/
  | aborted

def SessionError.isTransportFailure {P : Type} : SessionError P → Bool
  | .process => true
  | _ => false

/-- What the outside decides: whether the `n`-th start of a process fails, and the fate of
the `n`-th request of each lane. -/
structure Environment (P : Type) where
  start : ℕ → Option (SessionError P)
  fate : Lane → ℕ → Fate

structure Session (P S D : Type) where
  generation : ℕ
  restartEpoch : ℕ
  connection : Option (Process P S)
  replayBatches : List (List (FileChange P S))
  replayIndex : Finmap fun _ : P => ℕ
  stateToken : ℕ
  retainedDemands : Finmap fun _ : P => D
  closed : Bool

structure State (P S D : Type) where
  session : Session P S D
  started : ℕ
  asked : Lane → ℕ

structure Response (P S : Type) where
  answer : Answer
  valid : Bool
  followUps : ℕ
  process : Process P S

structure DemandGroup (P D : Type) where
  path : P
  demands : D
  /-- A location of another path among them. -/
  foreignLocation : Option P

structure FactTable (P S : Type) where
  answers : List (Process P S)

variable {P S D : Type}

abbrev Step (P S D α : Type) := Act (State P S D) (SessionError P) α

namespace Session

def setConnection (connection : Option (Process P S)) (state : State P S D) : State P S D :=
  { state with session := { state.session with connection } }

def setGeneration (generation : ℕ) (state : State P S D) : State P S D :=
  { state with session := { state.session with generation } }

variable (env : Environment P)

/-- Writes a request: fails if the process is gone. Otherwise what becomes of it is decided. -/
def send (lane : Lane) : Step P S D Fate := fun state =>
  match state.session.connection with
  | none => (.error .closed, state)
  | some process =>
    let state := { state with
      asked := Function.update state.asked lane (state.asked lane + 1) }
    match env.fate lane (state.asked lane - 1) with
    | .unsent => (.error .process, setConnection (some { process with alive := false }) state)
    | fate => (.ok fate, state)

def wait (request : Request P S D) (fate : Fate) : Step P S D (Response P S) := fun state =>
  match state.session.connection with
  | none => (.error .closed, state)
  | some process =>
    if process.alive then
      match fate with
      | .unsent => (.error .process, setConnection (some { process with alive := false }) state)
      | .lost accepted =>
        let process := if accepted then (process.lifecycle request).2 else process
        (.error .process, setConnection (some { process with alive := false }) state)
      | .refused code => (.error (.service code), state)
      | .answered valid followUps =>
        let (result, process) := process.lifecycle request
        let state := setConnection (some process) state
        match result with
        | .error code => (.error (.service code), state)
        | .ok answer =>
          let asked := Process.generationOf request
          if answer.generation ≠ asked then
            (.error (.invalidResponse (.identity answer.generation asked)), state)
          else (.ok ⟨answer, valid, followUps, process⟩, state)
    else (.error .process, state)

def exchangeOnce (lane : Lane) (request : Request P S D) : Step P S D (Response P S) := do
  let fate ← send env lane
  wait request fate

def clearRetainedState : Step P S D PUnit := Act.modify fun state =>
  { state with session := { state.session with stateToken := 0, retainedDemands := ∅ } }

def spawn : Step P S D PUnit := fun state =>
  let failure := env.start state.started
  let state := { state with started := state.started + 1 }
  match failure with
  | some error => (.error error, setConnection none state)
  | none => (.ok ⟨⟩, setConnection (some Process.started) state)

def bumpEpoch : Step P S D PUnit := fun state =>
  let epoch := state.session.restartEpoch + 1
  if epoch < 2 ^ 64 then
    (.ok ⟨⟩, { state with session := { state.session with restartEpoch := epoch } })
  else (.error .producerProvenance, state)

def replay (env : Environment P) : List (List (FileChange P S)) → Step P S D PUnit
  | [] => pure ⟨⟩
  | changes :: batches => do
      let generation ← Act.read fun state => state.session.generation
      let _ ← exchangeOnce env .replay (.update (generation + 1) changes)
      Act.modify fun state => setGeneration (state.session.generation + 1) state
      replay env batches

def restartAndReplay : Step P S D PUnit := do
  spawn env
  bumpEpoch
  Act.modify (setGeneration 1)
  clearRetainedState
  let _ ← exchangeOnce env .replay (.open 1)
  let batches ← Act.read fun state => state.session.replayBatches
  replay env batches

def exchange (request : Request P S D) : Step P S D (Response P S) :=
  (exchangeOnce env .ordinary request).catching fun error =>
    if error.isTransportFailure then do
      restartAndReplay env
      exchangeOnce env .ordinary request
    else Act.throw error

section

variable [DecidableEq P]

def supersedeChange (next : ℕ) (session : Session P S D) (change : FileChange P S) :
    Session P S D :=
  let batch := session.replayIndex.lookup change.path
  let session := { session with replayIndex := session.replayIndex.insert change.path next }
  match batch with
  | none => session
  | some batch =>
    { session with
      replayBatches := session.replayBatches.modify batch fun previous =>
        previous.filter fun kept => decide (kept.path ≠ change.path) }

def supersedeReplayedOverlays (changes : List (FileChange P S)) (session : Session P S D) :
    Session P S D :=
  changes.foldl (supersedeChange session.replayBatches.length) session

def commitUpdate (changes : List (FileChange P S)) : Step P S D PUnit := Act.modify fun state =>
  let session := { state.session with generation := state.session.generation + 1 }
  let session := supersedeReplayedOverlays changes session
  { state with session := { session with replayBatches := session.replayBatches ++ [changes] } }

def ensureOpen : Step P S D PUnit := do
  let closed ← Act.read fun state => state.session.closed
  if closed then Act.throw .closed else pure ⟨⟩

/-- Collects an update's answer; after a transport failure the update is sent once more to a
restarted process. -/
def finishUpdate (env : Environment P) (request : Request P S D) (fate : Fate)
    (changes : List (FileChange P S)) : Step P S D PUnit := do
  let _ ← (wait request fate).catching fun error =>
    if error.isTransportFailure then do
      restartAndReplay env
      let generation ← Act.read fun state => state.session.generation
      exchangeOnce env .ordinary (.update (generation + 1) changes)
    else Act.throw error
  commitUpdate changes

/-- Sends an update and waits for it. An update that cannot be written is tried again after a
restart, by a recursive call: `depth` is how deep the stack goes. -/
def update (env : Environment P) : ℕ → List (FileChange P S) → Step P S D PUnit
  | 0, _ => Act.throw .aborted
  | depth + 1, changes => do
      ensureOpen
      if changes.isEmpty then pure ⟨⟩
      else
        let generation ← Act.read fun state => state.session.generation
        let request : Request P S D := .update (generation + 1) changes
        let sent ← ((send env .ordinary : Step P S D Fate) >>= fun fate => pure (some fate)).catching
          fun error => if error.isTransportFailure then pure none else Act.throw error
        match sent with
        | some fate => finishUpdate env request fate changes
        | none => do
            restartAndReplay env
            update env depth changes

end

def query (request : ℕ → Request P S D) : Step P S D (Response P S) := do
  ensureOpen
  let generation ← Act.read fun state => state.session.generation
  let response ← exchange env (request generation)
  if response.valid then pure response else Act.throw (.invalidResponse .content)

def closeSymbols (env : Environment P) (token : ℕ) : ℕ → Step P S D (List (Process P S))
  | 0 => pure []
  | followUps + 1 => do
      let generation ← Act.read fun state => state.session.generation
      let response ← exchangeOnce env .ordinary (.symbols generation token)
      if response.valid then do
        let later ← closeSymbols env token followUps
        pure (response.process :: later)
      else Act.throw (.invalidResponse .content)

def analyzeExchange (demands : List D) (removed : List P) (reset : Bool) :
    Step P S D (FactTable P S) := do
  let session ← Act.read State.session
  let token := if reset then 0 else session.stateToken
  let response ← exchange env (.analyze session.generation token reset demands removed)
  if response.valid then do
    let symbols ← closeSymbols env response.answer.token response.followUps
    Act.modify fun state =>
      { state with session := { state.session with stateToken := response.answer.token } }
    pure ⟨response.process :: symbols⟩
  else Act.throw (.invalidResponse .content)

def rejectForeignLocations (groups : List (DemandGroup P D)) : Step P S D PUnit :=
  match groups.findSome? fun group => group.foreignLocation.map fun foreign =>
      (group.path, foreign) with
  | some (path, foreign) => Act.throw (.invalidResponse (.foreignLocation path foreign))
  | none => pure ⟨⟩

section

variable [LinearOrder P] [DecidableEq D]

def duplicatePath (seen : List P) : List (DemandGroup P D) → Option P
  | [] => none
  | group :: groups =>
    if group.path ∈ seen then some group.path else duplicatePath (group.path :: seen) groups

def retainGroups (kept : Finmap fun _ : P => D) (changed : List (DemandGroup P D))
    (removed : List P) : Finmap fun _ : P => D :=
  changed.foldl (fun kept group => kept.insert group.path group.demands)
    (removed.foldl (fun kept path => kept.erase path) kept)

def setRetained (change : (Finmap fun _ : P => D) → Finmap fun _ : P => D) :
    Step P S D PUnit := Act.modify fun state =>
  { state with
    session := { state.session with retainedDemands := change state.session.retainedDemands } }

def analyzeComplete (groups : List (DemandGroup P D)) : Step P S D (FactTable P S) := do
  rejectForeignLocations groups
  let table ← analyzeExchange env (groups.map DemandGroup.demands) [] true
  setRetained fun _ => retainGroups ∅ groups []
  pure table

def analyzeGroups (groups : List (DemandGroup P D)) : Step P S D (FactTable P S) := do
  ensureOpen
  match duplicatePath [] groups with
  | some path => Act.throw (.invalidResponse (.duplicateGroup path))
  | none => do
      let session ← Act.read State.session
      let reset := session.stateToken == 0
      let changed := if reset then groups else groups.filter fun group =>
        decide (session.retainedDemands.lookup group.path ≠ some group.demands)
      let removed := if reset then [] else
        (session.retainedDemands.keys.sort (· ≤ ·)).filter fun path =>
          decide (path ∉ groups.map DemandGroup.path)
      rejectForeignLocations changed
      let changed := sortByKey DemandGroup.path changed
      let exchanged : Step P S D (FactTable P S) := do
        let table ← analyzeExchange env (changed.map DemandGroup.demands) removed reset
        setRetained fun kept => retainGroups kept changed removed
        pure table
      exchanged.catching fun error =>
        match error with
        | .service .stateMismatch => do
            -- the producer lost the state the request was relative to
            clearRetainedState
            analyzeComplete env groups
        | error =>
          if error.isTransportFailure then do
            -- the process died after it answered, while the symbols were closed
            restartAndReplay env
            analyzeComplete env groups
          else Act.throw error

end

def unopened : State P S D :=
  ⟨⟨1, 0, none, [], ∅, 0, ∅, false⟩, 0, fun _ => 0⟩

def close : Step P S D PUnit := Act.modify fun state =>
  { state with session := { state.session with closed := true, connection := none } }

end Session

inductive Call (P S D : Type)
  | update (depth : ℕ) (changes : List (FileChange P S))
  | analyze (groups : List (DemandGroup P D))
  | configuredSources
  | moduleGraph
  | close

structure Use (P S D : Type) where
  state : State P S D
  acknowledged : List (List (FileChange P S))

namespace Use

variable [LinearOrder P] [DecidableEq D] (env : Environment P)

def update (use : Use P S D) (depth : ℕ) (changes : List (FileChange P S)) :
    Except (SessionError P) PUnit × Use P S D :=
  match Session.update env depth changes use.state with
  | (.ok done, state) =>
    (.ok done, ⟨state, if changes.isEmpty then use.acknowledged
      else use.acknowledged ++ [changes]⟩)
  | (.error error, state) => (.error error, ⟨state, use.acknowledged⟩)

def perform (use : Use P S D) : Call P S D → Use P S D
  | .update depth changes => (use.update env depth changes).2
  | .analyze groups => { use with state := (Session.analyzeGroups env groups use.state).2 }
  | .configuredSources => { use with state := (Session.query env .sources use.state).2 }
  | .moduleGraph => { use with state := (Session.query env .modules use.state).2 }
  | .close => { use with state := (Session.close use.state).2 }

def openSession (depth : ℕ) (sources : List (FileChange P S)) :
    Except (SessionError P) PUnit × Use P S D :=
  match (do Session.spawn env; Session.exchange env (.open 1) : Step P S D (Response P S))
      Session.unopened with
  | (.error error, state) => (.error error, ⟨state, []⟩)
  | (.ok _, state) => (⟨state, []⟩ : Use P S D).update env depth sources

def run (depth : ℕ) (sources : List (FileChange P S)) (calls : List (Call P S D)) :
    Option (Use P S D) :=
  match openSession env depth sources with
  | (.error _, _) => none
  | (.ok _, use) => some (calls.foldl (perform env) use)

end Use

end SolidChecker.Client
