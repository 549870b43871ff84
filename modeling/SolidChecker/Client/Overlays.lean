/- source: typefacts/src/session.rs; apps/solid-typefacts/src/project.rs, overlay.rs, gocompat.rs -/

import Mathlib.Data.List.MinMax
import SolidChecker.Client.Calls
import SolidChecker.Foundation.Table
import SolidChecker.Producer.Path

namespace SolidChecker.Client

open List

open Foundation (Act)
open Foundation.Act (Meets)
open Foundation.Table (lookup_insert_eq lookup_erase_eq)
open Producer (Path)

variable {P S D T : Type}

structure Host (S T : Type) where
  working : Path
  lossy : S → T

/-- The overlay of a producer: the versions it took, the texts and deletions, and its generation. -/
structure Overlays (T : Type) where
  versions : Finmap fun _ : Path => ℕ
  files : Finmap fun _ : Path => T
  deleted : Finset Path
  generation : ℕ

namespace Host

def absolute (host : Host S T) (path : Path) : Path :=
  if path.rooted then path.clean
  else Path.clean ((if host.working = [] then ['.'] else host.working) ++ '/' :: path)

end Host

namespace Overlays

def opened : Overlays T := ⟨∅, ∅, ∅, 1⟩

def cleanOverlayPath (path : Path) : Path :=
  if [':', '/', '/'] <:+: path then path else path.clean

def set (path : Path) (text : T) (overlays : Overlays T) : Overlays T :=
  { overlays with
    deleted := overlays.deleted.erase (cleanOverlayPath path)
    files := overlays.files.insert (cleanOverlayPath path) text }

def delete (path : Path) (overlays : Overlays T) : Overlays T :=
  { overlays with
    files := overlays.files.erase (cleanOverlayPath path)
    deleted := insert (cleanOverlayPath path) overlays.deleted }

def acceptChange (host : Host S T) (overlays : Overlays T) (change : FileChange Path S) :
    Overlays T :=
  let path := host.absolute change.path
  if (overlays.versions.lookup path).any fun version => decide (change.version ≤ version) then
    overlays
  else
    let overlays := { overlays with versions := overlays.versions.insert path change.version }
    if change.deleted then overlays.delete path else overlays.set path (host.lossy change.source)

def accept (host : Host S T) (overlays : Overlays T) (changes : List (FileChange Path S)) :
    Overlays T :=
  let overlays := changes.foldl (acceptChange host) overlays
  { overlays with generation := overlays.generation + 1 }

end Overlays

section

variable [DecidableEq P] (updates : List (List (FileChange P S)))

def committed : State P S D :=
  updates.foldl (fun state changes => (Session.commitUpdate changes state).2) Session.unopened

def unsuperseded : List (List (FileChange P S)) → List (List (FileChange P S))
  | [] => []
  | changes :: later =>
    changes.filter (fun change => decide (change.path ∉ later.flatten.map FileChange.path)) ::
      unsuperseded later

def dropNamed (changes batch : List (FileChange P S)) : List (FileChange P S) :=
  batch.filter fun kept => decide (kept.path ∉ changes.map FileChange.path)

private theorem unsuperseded_append
    (changes : List (FileChange P S)) : unsuperseded (updates ++ [changes]) =
      (unsuperseded updates).map (dropNamed changes) ++ [changes] := by
  induction updates with
  | nil => simp [unsuperseded]
  | cons first updates ih =>
    rw [cons_append, unsuperseded, ih, unsuperseded, map_cons, cons_append, dropNamed,
      filter_filter]
    congr 2
    funext change
    rw [flatten_append, flatten_singleton, map_append, Bool.eq_iff_iff]
    simp only [mem_append, not_or, Bool.and_eq_true, decide_eq_true_eq, and_comm]

private theorem unsuperseded_length : (unsuperseded updates).length = updates.length := by
  induction updates with
  | nil => rfl
  | cons changes updates ih => exact congrArg (· + 1) ih

def Indexed (session : Session P S D) : Prop :=
  ∀ n batch, session.replayBatches[n]? = some batch → ∀ change ∈ batch,
    session.replayIndex.lookup change.path = some n

private theorem supersedeChange_batches {session : Session P S D} (indexed : Indexed session) (next : ℕ)
    (change : FileChange P S) : (Session.supersedeChange next session change).replayBatches =
      session.replayBatches.map (dropNamed [change]) := by
  have others : ∀ n batch, session.replayBatches[n]? = some batch →
      session.replayIndex.lookup change.path ≠ some n → dropNamed [change] batch = batch := by
    intro n batch found elsewhere
    refine filter_eq_self.mpr fun kept member => decide_eq_true ?_
    rw [map_singleton, mem_singleton]
    exact fun same => elsewhere (same ▸ indexed n batch found kept member)
  unfold Session.supersedeChange
  cases place : session.replayIndex.lookup change.path with
  | none =>
    refine (map_id _).symm.trans (map_congr_left fun batch member => ?_)
    obtain ⟨n, found⟩ := getElem?_of_mem member
    exact (others n batch found (by rw [place]; exact nofun)).symm
  | some index =>
    refine ext_getElem? fun n => ?_
    rw [getElem?_modify, getElem?_map]
    cases found : session.replayBatches[n]? with
    | none => rfl
    | some batch =>
      by_cases here : index = n
      · simp [here, dropNamed]
      · simp only [here, if_false]
        exact congrArg some (others n batch found (by rw [place]; simpa using here)).symm

private theorem supersedeChange_index (next : ℕ) (session : Session P S D) (change : FileChange P S)
    (path : P) : (Session.supersedeChange next session change).replayIndex.lookup path =
      if path = change.path then some next else session.replayIndex.lookup path := by
  unfold Session.supersedeChange
  cases session.replayIndex.lookup change.path <;> exact lookup_insert_eq _ _ _ _

private theorem dropNamed_singleton_dropNamed (change : FileChange P S)
    (changes batch : List (FileChange P S)) :
    dropNamed changes (dropNamed [change] batch) = dropNamed (change :: changes) batch := by
  unfold dropNamed
  rw [filter_filter]
  congr 1
  funext kept
  rw [Bool.eq_iff_iff]
  simp only [map_cons, map_nil, mem_cons, not_mem_nil, or_false, not_or,
    Bool.and_eq_true, decide_eq_true_eq, and_comm]

private theorem supersede_batches (next : ℕ) (changes : List (FileChange P S)) (session : Session P S D)
    (indexed : Indexed session) :
    let after := changes.foldl (.supersedeChange next) session
    after.replayBatches = session.replayBatches.map (dropNamed changes) ∧
      ∀ path, after.replayIndex.lookup path =
        if path ∈ changes.map FileChange.path then some next
        else session.replayIndex.lookup path := by
  induction changes generalizing session with
  | nil =>
    refine ⟨(map_id _).symm.trans (map_congr_left fun batch _ => ?_), fun _ => rfl⟩
    exact (filter_eq_self.mpr fun _ _ => rfl).symm
  | cons change changes ih =>
    have batches := supersedeChange_batches indexed next change
    have index := supersedeChange_index next session change
    have still : Indexed (.supersedeChange next session change) := by
      intro n batch found kept member
      rw [batches, getElem?_map, Option.map_eq_some_iff] at found
      obtain ⟨full, there, rfl⟩ := found
      obtain ⟨inside, other⟩ := mem_filter.mp member
      rw [index, if_neg (by simpa using other)]
      exact indexed n full there kept inside
    obtain ⟨later, places⟩ := ih _ still
    refine ⟨later.trans ?_, fun path => (places path).trans ?_⟩
    · rw [batches, map_map]
      exact map_congr_left fun batch _ => dropNamed_singleton_dropNamed change changes batch
    · rw [index, map_cons]
      by_cases listed : path ∈ changes.map FileChange.path
      · rw [if_pos listed, if_pos (mem_cons_of_mem _ listed)]
      · simp only [listed, if_false, mem_cons, or_false]

private theorem committed_batches :
    (committed updates : State P S D).session.replayBatches = unsuperseded updates ∧
      Indexed (committed updates : State P S D).session := by
  induction updates using List.reverseRecOn with
  | nil => exact ⟨rfl, fun n batch found => by simp [committed, Session.unopened] at found⟩
  | append_singleton updates changes ih =>
    obtain ⟨batches, indexed⟩ := ih
    let before : Session P S D := { (committed updates : State P S D).session with
      generation := (committed updates : State P S D).session.generation + 1 }
    obtain ⟨kept, index⟩ := supersede_batches before.replayBatches.length changes before indexed
    have recorded : (committed (updates ++ [changes]) : State P S D).session.replayBatches =
        before.replayBatches.map (dropNamed changes) ++ [changes] := by
      simp only [committed, foldl_append, foldl_cons, foldl_nil]
      exact congrArg (· ++ [changes]) kept
    have places : ∀ path,
        (committed (updates ++ [changes]) : State P S D).session.replayIndex.lookup path =
          if path ∈ changes.map FileChange.path then some before.replayBatches.length
          else before.replayIndex.lookup path := by
      intro path
      simp only [committed, foldl_append, foldl_cons, foldl_nil]
      exact index path
    refine ⟨recorded.trans ?_, fun n batch found change member => ?_⟩
    · rw [unsuperseded_append, ← batches]
    · rw [recorded] at found
      rw [places]
      by_cases old : n < (before.replayBatches.map (dropNamed changes)).length
      · rw [getElem?_append_left old, getElem?_map, Option.map_eq_some_iff] at found
        obtain ⟨full, there, rfl⟩ := found
        obtain ⟨inside, other⟩ := mem_filter.mp member
        rw [if_neg (of_decide_eq_true other)]
        exact indexed n full there change inside
      · rw [getElem?_append_right (Nat.le_of_not_lt old), getElem?_singleton] at found
        obtain ⟨last, same⟩ := Option.ite_none_right_eq_some.mp found
        cases same
        rw [if_pos (mem_map_of_mem member)]
        rw [length_map] at old last
        exact congrArg some (by omega)

end

section

def keptFor (state : State P S D) : List (List (FileChange P S)) × Finmap fun _ : P => ℕ :=
  (state.session.replayBatches, state.session.replayIndex)

namespace Session

private theorem aside_kept (held : List (List (FileChange P S)) × Finmap fun _ : P => ℕ) :
    Aside fun state : State P S D => keptFor state = held where
  asks _ _ same := same
  starts _ same := same
  turns _ _ batches index same := (Prod.ext batches index).trans same

private theorem kept_conduct (env : Environment P)
    (held : List (List (FileChange P S)) × Finmap fun _ : P => ℕ) :
    Conduct env (fun state : State P S D => keptFor state = held) (fun _ _ => True)
      fun _ _ => True where
  once lane request _ := ((aside_kept held).exchangeOnce env lane request).relax fun _ _ same => ⟨same, fun _ _ => trivial⟩
  restart := (aside_kept held).restart env
  retains _ _ _ same := same
  tells _ _ _ := trivial
  lasts _ := aside_true

end Session

section

variable [DecidableEq P]

private theorem supersede_congr (next : ℕ) (changes : List (FileChange P S)) (session other : Session P S D)
    (batches : session.replayBatches = other.replayBatches)
    (index : session.replayIndex = other.replayIndex) :
    let after := changes.foldl (.supersedeChange next)
    (after session).replayBatches = (after other).replayBatches ∧
      (after session).replayIndex = (after other).replayIndex := by
  induction changes generalizing session other with
  | nil => exact ⟨batches, index⟩
  | cons change changes ih =>
    refine ih _ _ ?_ ?_ <;>
      (unfold Session.supersedeChange; rw [index]; cases other.replayIndex.lookup change.path) <;>
      simp only [batches]

private theorem commitUpdate_congr (changes : List (FileChange P S)) {state other : State P S D}
    (same : keptFor state = keptFor other) :
    keptFor (Session.commitUpdate changes state).2 = keptFor (Session.commitUpdate changes other).2 := by
  obtain ⟨batches, index⟩ := Prod.mk.inj same
  have counted : state.session.replayBatches.length = other.session.replayBatches.length :=
    congrArg List.length batches
  obtain ⟨left, right⟩ := supersede_congr other.session.replayBatches.length changes
    { state.session with generation := state.session.generation + 1 }
    { other.session with generation := other.session.generation + 1 } batches index
  refine Prod.ext ?_ ?_
  · simp only [keptFor, Session.commitUpdate, Act.modify, Session.supersedeReplayedOverlays, counted,
      left]
  · simp only [keptFor, Session.commitUpdate, Act.modify, Session.supersedeReplayedOverlays, counted,
      right]

private theorem committed_append (updates : List (List (FileChange P S))) (changes : List (FileChange P S)) :
    (committed (updates ++ [changes]) : State P S D) =
      (Session.commitUpdate changes (committed updates)).2 := by
  rw [committed, foldl_append, foldl_cons, foldl_nil, committed]

variable (env : Environment P)

private theorem updating_records (updates : List (List (FileChange P S)))
    (changes : List (FileChange P S)) : Session.Updating env changes
      (fun state : State P S D => keptFor state = keptFor (committed updates : State P S D))
      (fun _ state => keptFor state = keptFor (committed updates : State P S D))
      (fun state => keptFor state = keptFor (committed updates : State P S D))
      fun state => keptFor state = keptFor (committed (updates ++ [changes]) : State P S D) where
  sends _ := Session.outcome_of_keeps (((Session.aside_kept _).send env _).strengthen
    (fun _ same => same.1)) fun _ same => same
  waits _ fate := Session.outcome_of_keeps ((Session.aside_kept _).wait _ fate) fun _ same => same
  restart := (Session.aside_kept _).restart env
  commits _ same :=
    (commitUpdate_congr changes same).trans (congrArg keptFor (committed_append _ _)).symm

end

variable [LinearOrder P] (env : Environment P)

private theorem keeps_records : Use.Keeps env fun acknowledged (state : State P S D) =>
    keptFor state = keptFor (committed acknowledged : State P S D) where
  updates acknowledged depth changes := by
    have updated := (updating_records env acknowledged changes).update (D := D) depth
    by_cases nothing : changes.isEmpty = true <;> simpa [nothing] using updated
  reads _ := ⟨_, _, Session.kept_conduct env _⟩
  closes _ _ same := same

/-- In every run the batches of a replay are those left of the acknowledged updates. -/
theorem run_replays [DecidableEq D] {depth : ℕ} {sources : List (FileChange P S)}
    {calls : List (Call P S D)} {use : Use P S D}
    (reached : Use.run env depth sources calls = some use) :
    use.state.session.replayBatches = unsuperseded use.acknowledged := by
  have kept := Session.aside_kept (D := D) (keptFor (committed [] : State P S D))
  have records := (keeps_records env).run (Session.outcome_of_keeps
    (((kept.spawn env).bind fun _ => kept.exchange env (.open 1)).strengthen
      (fun _ start => congrArg keptFor start)) fun _ _ => trivial) reached
  exact (Prod.mk.inj records).1.trans (committed_batches use.acknowledged).1

/-- The second update leaves nothing of the first. -/
theorem run_replays_second : ∃ use : Use ℕ ℕ ℕ,
    Use.run ⟨fun _ => none, fun _ _ => .answered true 0⟩ 1 []
      [.update 1 [⟨0, 0, false, 1⟩], .update 1 [⟨0, 1, false, 2⟩]] = some use ∧
    use.state.session.replayBatches = unsuperseded use.acknowledged := by
  have runs : (Use.run ⟨fun _ => none, fun _ _ => .answered true 0⟩ 1 []
      [.update 1 [⟨0, 0, false, 1⟩], .update 1 [⟨0, 1, false, 2⟩]] :
        Option (Use ℕ ℕ ℕ)).isSome := by decide +kernel
  obtain ⟨use, ran⟩ := Option.isSome_iff_exists.mp runs
  exact ⟨use, ran, run_replays _ ran⟩

end

section

variable (host : Host S T)

def newest (path : Path) (changes : List (FileChange Path S)) : Option (FileChange Path S) :=
  (changes.filter fun change => decide (host.absolute change.path = path)).argmax FileChange.version

def content (change : FileChange Path S) : Option T :=
  if change.deleted then none else some (host.lossy change.source)

private theorem newest_append (path : Path) (changes : List (FileChange Path S))
    (change : FileChange Path S) : newest host path (changes ++ [change]) =
      if host.absolute change.path = path then some (((newest host path changes).filter fun older =>
          change.version ≤ older.version).getD change) else newest host path changes := by
  unfold newest
  rw [filter_append, filter_singleton]
  by_cases same : host.absolute change.path = path
  · rw [decide_eq_true same, if_pos same, cond_true, argmax_concat]
    cases (changes.filter fun change => host.absolute change.path = path).argmax
      FileChange.version with
    | none => rfl
    | some older =>
      by_cases newer : older.version < change.version
      · simp [newer, Option.filter, Nat.not_le_of_lt newer]
      · simp [newer, Option.filter, Nat.le_of_not_lt newer]
  · rw [decide_eq_false same, if_neg same, cond_false, append_nil]

structure Shows (changes : List (FileChange Path S)) (overlays : Overlays T) : Prop where
  versions : ∀ path, overlays.versions.lookup path =
    (newest host path changes).map FileChange.version
  files : ∀ path, overlays.files.lookup path = ((newest host path changes).map (content host)).join
  deleted : ∀ path, path ∈ overlays.deleted ↔
    (newest host path changes).map (content host) = some none

private theorem cleanOverlayPath_absolute (path : Path) :
    Overlays.cleanOverlayPath (host.absolute path) = host.absolute path := by
  have clean : (host.absolute path).clean = host.absolute path := by
    unfold Host.absolute
    split <;> exact Path.clean_clean _
  unfold Overlays.cleanOverlayPath
  split
  · rfl
  · exact clean

private theorem opened_shows : Shows host [] Overlays.opened :=
  ⟨fun _ => rfl, fun _ => rfl, fun path => iff_of_false (Finset.notMem_empty path) nofun⟩

variable {changes : List (FileChange Path S)} {overlays : Overlays T}

private theorem acceptChange_shows (held : Shows host changes overlays) (change : FileChange Path S) :
    Shows host (changes ++ [change]) (overlays.acceptChange host change) := by
  have ignored : (overlays.versions.lookup (host.absolute change.path)).any
      (fun version => change.version ≤ version) =
      ((newest host (host.absolute change.path) changes).filter fun older =>
        change.version ≤ older.version).isSome := by
    rw [held.versions]
    cases newest host (host.absolute change.path) changes with
    | none => rfl
    | some older => by_cases old : change.version ≤ older.version <;> simp [Option.filter, old]
  unfold Overlays.acceptChange
  dsimp only
  rw [ignored]
  cases stale : (newest host (host.absolute change.path) changes).filter fun older =>
      decide (change.version ≤ older.version) with
  | some older =>
    have same : ∀ path, newest host path (changes ++ [change]) = newest host path changes := by
      intro path
      rw [newest_append]
      split
      · next here => rw [← here, stale, Option.getD_some, (Option.filter_eq_some_iff.mp stale).1]
      · rfl
    exact ⟨fun path => same path ▸ held.versions path, fun path => same path ▸ held.files path,
      fun path => same path ▸ held.deleted path⟩
  | none =>
    have taken : ∀ path, newest host path (changes ++ [change]) =
        if path = host.absolute change.path then some change else newest host path changes := by
      intro path
      rw [newest_append]
      by_cases here : host.absolute change.path = path
      · rw [if_pos here, if_pos here.symm, ← here, stale, Option.getD_none]
      · rw [if_neg here, if_neg (Ne.symm here)]
    have versions : ∀ path, (overlays.versions.insert (host.absolute change.path)
        change.version).lookup path =
          (newest host path (changes ++ [change])).map FileChange.version := by
      intro path
      rw [lookup_insert_eq, taken, held.versions]
      split <;> rfl
    simp only [Option.isSome_none, Bool.false_eq_true, if_false]
    cases gone : change.deleted with
    | true =>
      refine ⟨versions, fun path => ?_, fun path => ?_⟩
      · show (overlays.files.erase _).lookup path = _
        rw [lookup_erase_eq, cleanOverlayPath_absolute, taken, held.files]
        split
        · simp [content, gone]
        · rfl
      · show path ∈ insert _ overlays.deleted ↔ _
        rw [Finset.mem_insert, cleanOverlayPath_absolute, taken, held.deleted]
        split
        · next here => simp [here, content, gone]
        · next here => simp [here]
    | false =>
      refine ⟨versions, fun path => ?_, fun path => ?_⟩
      · show (overlays.files.insert _ _).lookup path = _
        rw [lookup_insert_eq, cleanOverlayPath_absolute, taken, held.files]
        split
        · simp [content, gone]
        · rfl
      · show path ∈ overlays.deleted.erase _ ↔ _
        rw [Finset.mem_erase, cleanOverlayPath_absolute, taken, held.deleted]
        split
        · next here => simp [here, content, gone]
        · next here => simp [here]

private theorem acceptAll_shows (held : Shows host changes overlays) (later : List (FileChange Path S)) :
    Shows host (changes ++ later) (later.foldl (Overlays.acceptChange host) overlays) := by
  induction later generalizing changes overlays with
  | nil => rwa [append_nil]
  | cons change later ih =>
    have taken := ih (acceptChange_shows host held change)
    rwa [append_assoc] at taken

private theorem acceptChange_generation (overlays : Overlays T) (change : FileChange Path S) :
    (overlays.acceptChange host change).generation = overlays.generation := by
  unfold Overlays.acceptChange
  dsimp only
  split
  · rfl
  · split <;> rfl

private theorem acceptAll_generation (overlays : Overlays T) (changes : List (FileChange Path S)) :
    (changes.foldl (Overlays.acceptChange host) overlays).generation = overlays.generation := by
  induction changes generalizing overlays with
  | nil => rfl
  | cons change changes ih => exact (ih _).trans (acceptChange_generation host overlays change)

private theorem accepted_shows (updates : List (List (FileChange Path S))) :
    Shows host updates.flatten (updates.foldl (Overlays.accept host) Overlays.opened) ∧
      (updates.foldl (Overlays.accept host) Overlays.opened).generation = updates.length + 1 := by
  induction updates using List.reverseRecOn with
  | nil => exact ⟨opened_shows host, rfl⟩
  | append_singleton updates changes ih =>
    obtain ⟨held, generation⟩ := ih
    rw [foldl_append, foldl_cons, foldl_nil, flatten_append, flatten_singleton, length_append]
    have taken := acceptAll_shows host held changes
    refine ⟨⟨taken.versions, taken.files, taken.deleted⟩, ?_⟩
    exact congrArg (· + 1) ((acceptAll_generation host _ changes).trans generation)

private theorem Shows.same_iff {changes others : List (FileChange Path S)} {overlays replayed : Overlays T}
    (held : Shows host changes overlays) (other : Shows host others replayed) :
    (replayed.files = overlays.files ∧ replayed.deleted = overlays.deleted) ↔
      ∀ path, (newest host path others).map (content host) =
        (newest host path changes).map (content host) := by
  constructor
  · rintro ⟨files, deleted⟩ path
    have texts := (other.files path).symm.trans ((congrArg (Finmap.lookup path) files).trans
      (held.files path))
    have gone := (other.deleted path).symm.trans ((iff_of_eq (congrArg (path ∈ ·) deleted)).trans
      (held.deleted path))
    generalize (newest host path others).map (content host) = left at texts gone ⊢
    generalize (newest host path changes).map (content host) = right at texts gone ⊢
    rcases left with _ | _ | left <;> rcases right with _ | _ | right <;> simp_all
  · intro same
    refine ⟨Finmap.ext_lookup fun path => ?_, Finset.ext fun path => ?_⟩
    · rw [other.files, held.files, same]
    · rw [other.deleted, held.deleted, same]

end

section

variable (host : Host S T)

/-- A replay of what the session kept ends with the overlay and the generation of the updates
exactly if the newest content of every path is the newest among the changes of the last updates
that name it. -/
theorem replay_restores_overlay (updates : List (List (FileChange Path S))) :
    let original := updates.foldl (Overlays.accept host) Overlays.opened
    let replayed := (committed updates : State Path S D).session.replayBatches.foldl
      (Overlays.accept host) Overlays.opened
    (replayed.files = original.files ∧ replayed.deleted = original.deleted ∧
        replayed.generation = original.generation) ↔
      ∀ path, (newest host path (unsuperseded updates).flatten).map (content host) =
        (newest host path updates.flatten).map (content host) := by
  intro original replayed
  have kept : replayed = (unsuperseded updates).foldl (Overlays.accept host) Overlays.opened :=
    congrArg (List.foldl _ _) (committed_batches updates).1
  obtain ⟨held, generation⟩ := accepted_shows host updates
  obtain ⟨other, level⟩ := accepted_shows host (unsuperseded updates)
  rw [unsuperseded_length] at level
  rw [← Shows.same_iff host held other, ← kept]
  have counted : replayed.generation = original.generation := by
    rw [kept]
    exact level.trans generation.symm
  exact ⟨fun same => ⟨same.1, same.2.1⟩, fun same => ⟨same.1, same.2, counted⟩⟩

/-- The producer keeps the newer text and ignores the update with an older version; the session
keeps that update, and a replay has its text. -/
theorem replay_restores_older :
    let host : Host ℕ ℕ := ⟨['/', 'p'], id⟩
    let path : Path := ['/', 'p', '/', 'a']
    let updates : List (List (FileChange Path ℕ)) := [[⟨path, 10, false, 5⟩], [⟨path, 20, false, 3⟩]]
    let original := updates.foldl (Overlays.accept host) Overlays.opened
    let replayed := (committed updates : State Path ℕ Unit).session.replayBatches.foldl
      (Overlays.accept host) Overlays.opened
    original.files.lookup path = some 10 ∧ replayed.files.lookup path = some 20 := by
  decide +kernel

end

end SolidChecker.Client
