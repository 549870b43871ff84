/- source: apps/solid-typefacts/src/per_file.rs -/

import SolidChecker.Producer.PerFile

namespace SolidChecker.Producer

open Foundation List

variable {V W F X : Type} {passes : PassOutputs V W F X} {state after : PerFile W F X}
  {paths : List Path} {outputs : List ℕ}

namespace PerFile

def held (state : PerFile W F X) (path : Path) :
    List (EntityFact F) × List (AsyncFunctionFact X) :=
  (((state.servedAt path).map Served.rows).getD [], (state.servedAsync.lookup path).getD [])

def stamps (state : PerFile W F X) : Stamps Path :=
  if state.versionsValid then state.versions else state.versions.clear

structure Aligned (passes : PassOutputs V W F X) (state : PerFile W F X) : Prop where
  distinct : state.servedPaths.Nodup
  length : state.served.length = state.servedPaths.length
  made : ∀ run ∈ state.served, run.rows = passes.rows (passes.value run.output) run.answers

structure Sound (passes : PassOutputs V W F X)
    (meaning : Path → ℕ → List (EntityFact F) × List (AsyncFunctionFact X))
    (state : PerFile W F X) : Prop extends Aligned passes state where
  works : (state.merged.works.filter WorkId.run).map WorkId.path = state.servedPaths
  facts : ∀ count facts, state.servedFacts = some (count, facts) → state.servedAsync = byPath facts
  means : state.stamps.Means meaning ([], []) state.held

section

variable {ε : Type} {entries : List ε} {path : ε → Path} {run : ε → Served W F}

private theorem servedAt_entry (paths : state.servedPaths = entries.map path)
    (served : state.served = entries.map run) (distinct : state.servedPaths.Nodup) {entry : ε}
    (member : entry ∈ entries) : state.servedAt (path entry) = some (run entry) := by
  rw [servedAt, paths, served, zip_map']
  refine (Table.lookup_collect ?_ _ _).mpr (mem_map_of_mem member)
  rw [map_map]
  exact paths ▸ distinct

theorem servedAt_absent {gone : Path} (absent : gone ∉ state.servedPaths) :
    state.servedAt gone = none := by
  by_contra found
  obtain ⟨served, found⟩ := Option.ne_none_iff_exists'.mp found
  exact absent (of_mem_zip (Table.mem_of_lookup_collect found)).1

end

end PerFile

section

private def Served.Made (passes : PassOutputs V W F X) (run : Served W F) : Prop :=
  run.rows = passes.rows (passes.value run.output) run.answers

private def Follows (previous : Option (Served W F)) (path : Path)
    (run : Served W F × List Path) : Prop :=
  run.2 = [path] ∨ (run.2 = [] ∧ ∃ earlier, previous = some earlier ∧ earlier.rows = run.1.rows)

variable [DecidableEq V] [DecidableEq W] {previous : Served W F}

private theorem Served.rows_of_same {output : ℕ} {answers : W} (made : previous.Made passes)
    (same : previous.same passes output answers) :
    previous.rows = passes.rows (passes.value output) answers := by
  obtain ⟨outputs, answers⟩ := of_decide_eq_true same
  have value : passes.value previous.output = passes.value output :=
    outputs.elim (congrArg passes.value) id
  rw [made, value, answers]

variable (answers : W) (path : Path) (output : ℕ)

private theorem serveAnew_follows {previous : Option (Served W F)}
    (made : ∀ run, previous = some run → run.Made passes) :
    Follows previous path (serveAnew passes answers path output previous) := by
  unfold serveAnew
  split
  · rename_i same
    obtain ⟨run, found, same⟩ := (Option.any_eq_true _ _).mp same
    exact .inr ⟨rfl, run, found, Served.rows_of_same (made run found) same⟩
  · exact .inl rfl

private theorem serveAgain_follows (again : Bool) (made : previous.Made passes) :
    Follows (some previous) path (serveAgain passes again answers path output previous) := by
  unfold serveAgain
  split
  · exact .inr ⟨rfl, previous, rfl, rfl⟩
  · split
    · exact .inr ⟨rfl, previous, rfl, rfl⟩
    · exact serveAnew_follows answers path output fun run found => by
        cases found
        exact made

private theorem serveAgain_made (again : Bool) (made : previous.Made passes) :
    (serveAgain passes again answers path output previous).1.Made passes := by
  unfold serveAgain
  split
  · exact made
  · split
    · exact made
    · rfl

end

namespace PerFile

section

variable {ε : Type} {entries : List ε} {path : ε → Path} {run : ε → Served W F × List Path}

private theorem rows_of_unmoved (distinct : after.servedPaths.Nodup)
    (paths : after.servedPaths = entries.map path)
    (served : after.served = entries.map fun entry => (run entry).1)
    (follows : ∀ entry ∈ entries, Follows (state.servedAt (path entry)) (path entry) (run entry))
    {key : Path} (inside : key ∈ after.servedPaths)
    (unmoved : key ∉ entries.flatMap fun entry => (run entry).2) :
    (after.servedAt key).map Served.rows = (state.servedAt key).map Served.rows := by
  obtain ⟨entry, member, rfl⟩ := mem_map.mp (paths ▸ inside)
  rw [servedAt_entry paths served distinct member]
  rcases follows entry member with moved | ⟨-, previous, found, rows⟩
  · exact absurd (mem_flatMap.mpr ⟨entry, member, by simp [moved]⟩) unmoved
  · rw [found, Option.map_some, Option.map_some, rows]

end

/-- What serving does to one path: its version stays, with its rows unless it left the runs with
async facts; or it has a fresh one; or it has none and no rows. -/
def Moves (state after : PerFile W F X) (path : Path) : Prop :=
  (after.versions.version path = state.stamps.version path ∧
      (after.held path = state.held path ∨ (path ∉ after.servedPaths ∧ path ∈ state.servedAsync))) ∨
    Stamps.Fresh state.stamps after.versions path ∨
    (after.versions.version path = none ∧ after.held path = ([], []))

section

private theorem Aligned.made_at (aligned : state.Aligned passes) {path : Path} {run : Served W F}
    (found : state.servedAt path = some run) :
    run.rows = passes.rows (passes.value run.output) run.answers :=
  aligned.made run (of_mem_zip (Table.mem_of_lookup_collect found)).2

private theorem positions_paths (long : paths.length ≤ outputs.length) :
    paths = (paths.zip outputs).zipIdx.map fun entry => entry.1.1 := by
  have firsts := congrArg (List.map Prod.fst) (zipIdx_map_fst 0 (paths.zip outputs))
  rw [map_map, map_fst_zip long] at firsts
  exact firsts.symm

private theorem held_eq {path : Path}
    (rows : (after.servedAt path).map Served.rows = (state.servedAt path).map Served.rows)
    (facts : after.servedAsync = state.servedAsync) : after.held path = state.held path := by
  rw [held, held, rows, facts]

private theorem positions_served (aligned : state.served.length = state.servedPaths.length)
    (long : state.servedPaths.length ≤ outputs.length) :
    let entries := ((state.servedPaths.zip outputs).zip state.served).zipIdx
    state.servedPaths = entries.map (fun entry => entry.1.1.1) ∧
      state.served = entries.map fun entry => entry.1.2 := by
  intro entries
  have length : (state.servedPaths.zip outputs).length = state.served.length := by
    rw [length_zip]
    omega
  have pairs : entries.map Prod.fst = _ := zipIdx_map_fst 0 _
  constructor
  · have firsts := congrArg (fun pairs => (pairs.map Prod.fst).map Prod.fst) pairs
    simp only [map_fst_zip length.le, map_fst_zip long, map_map] at firsts
    exact firsts.symm
  · have seconds := congrArg (List.map Prod.snd) pairs
    rw [map_map, map_snd_zip length.ge] at seconds
    exact seconds.symm

variable [DecidableEq V] [DecidableEq W]

private theorem serveAll_moves (aligned : state.Aligned passes) (answers : ℕ → W)
    (distinct : paths.Nodup) (long : paths.length ≤ outputs.length) (path : Path) :
    Moves state (state.serveAll passes answers paths outputs) path := by
  let run := fun entry : (Path × ℕ) × ℕ =>
    serveAnew passes (answers entry.2) entry.1.1 entry.1.2 (state.servedAt entry.1.1)
  let moved := (paths.zip outputs).zipIdx.flatMap fun entry => (run entry).2
  let after := state.serveAll passes answers paths outputs
  let gone := state.servedPaths.filter fun path => path ∉ paths ∧ path ∉ state.servedAsync
  let kept := state.stamps.dropAll gone
  let unversioned := paths.filter fun path => (kept.version path).isNone
  have positions : after.servedPaths = (paths.zip outputs).zipIdx.map fun entry => entry.1.1 :=
    positions_paths long
  have served : after.served = (paths.zip outputs).zipIdx.map fun entry => (run entry).1 :=
    map_map
  have versions : after.versions = kept.stampAll (moved ++ unversioned) := by
    have flat : _ = moved := flatMap_map _ _ _
    show Stamps.stampAll _ (_ ++ _) = _
    rw [flat]
    rfl
  have follows : ∀ entry ∈ (paths.zip outputs).zipIdx,
      Follows (state.servedAt entry.1.1) entry.1.1 (run entry) := fun entry _ =>
    serveAnew_follows (answers entry.2) entry.1.1 entry.1.2 fun _ found => aligned.made_at found
  have next : kept.next = state.stamps.next := Stamps.dropAll_next _ _
  by_cases named : path ∈ moved ++ unversioned
  · obtain ⟨version, given, above, bound⟩ := kept.stampAll_of_mem named
    exact .inr (.inl ⟨version, versions ▸ given, next ▸ above, versions ▸ bound⟩)
  · have same : after.versions.version path = kept.version path := by
      rw [versions, Stamps.stampAll_of_not_mem _ named]
    rw [Stamps.dropAll_version] at same
    have unmoved : path ∉ moved := fun moved => named (mem_append_left _ moved)
    by_cases inside : path ∈ paths
    · have stays : path ∉ gone := fun left =>
        (of_decide_eq_true (mem_filter.mp left).2).1 inside
      rw [if_neg stays] at same
      exact .inl ⟨same, .inl (held_eq
        (rows_of_unmoved distinct positions served follows inside unmoved) rfl)⟩
    · have none : after.servedAt path = none := servedAt_absent inside
      by_cases left : path ∈ gone
      · rw [if_pos left] at same
        have facts : path ∉ state.servedAsync :=
          (of_decide_eq_true (mem_filter.mp left).2).2
        refine .inr (.inr ⟨same, ?_⟩)
        show ((after.servedAt path).map Served.rows |>.getD [],
          (state.servedAsync.lookup path).getD []) = _
        rw [none, Finmap.lookup_eq_none.mpr facts]
        rfl
      · rw [if_neg left] at same
        refine .inl ⟨same, ?_⟩
        by_cases facts : path ∈ state.servedAsync
        · exact .inr ⟨inside, facts⟩
        · have unserved : path ∉ state.servedPaths := fun served =>
            left (mem_filter.mpr ⟨served, decide_eq_true ⟨inside, facts⟩⟩)
          exact .inl (held_eq (by rw [none, servedAt_absent unserved]) rfl)

private theorem serveAll_aligned (answers : ℕ → W) (distinct : paths.Nodup)
    (long : paths.length ≤ outputs.length) :
    (state.serveAll passes answers paths outputs).Aligned passes := by
  refine ⟨distinct, ?_, fun run member => ?_⟩
  · show ((List.map _ _).map _).length = paths.length
    rw [length_map, length_map, length_zipIdx, length_zip, min_eq_left long]
  · obtain ⟨served, entry, rfl⟩ := mem_map.mp member
    obtain ⟨place, -, rfl⟩ := mem_map.mp entry
    rfl

variable (again : ℕ → Bool) (answers : ℕ → W)

private theorem serveChanged_moves (aligned : state.Aligned passes)
    (long : state.servedPaths.length ≤ outputs.length) (valid : state.versionsValid) (path : Path) :
    Moves state (state.serveChanged passes again answers state.servedPaths outputs) path := by
  let run := fun entry : ((Path × ℕ) × Served W F) × ℕ =>
    serveAgain passes (again entry.2) (answers entry.2) entry.1.1.1 entry.1.1.2 entry.1.2
  let entries := ((state.servedPaths.zip outputs).zip state.served).zipIdx
  let moved := entries.flatMap fun entry => (run entry).2
  let after := state.serveChanged passes again answers state.servedPaths outputs
  obtain ⟨paths, before⟩ := positions_served aligned.length long
  have positions : after.servedPaths = entries.map fun entry => entry.1.1.1 := paths
  have served : after.served = entries.map fun entry => (run entry).1 := map_map
  have stamps : state.stamps = state.versions := if_pos valid
  have versions : after.versions = state.stamps.stampAll moved := by
    have flat : _ = moved := flatMap_map _ _ _
    show Stamps.stampAll _ _ = _
    rw [flat, stamps]
  have follows : ∀ entry ∈ entries,
      Follows (state.servedAt entry.1.1.1) entry.1.1.1 (run entry) := by
    intro entry member
    have found := servedAt_entry paths before aligned.distinct member
    rw [found]
    exact serveAgain_follows _ _ _ _ (aligned.made_at found)
  by_cases named : path ∈ moved
  · exact .inr (.inl (versions ▸ state.stamps.stampAll_of_mem named))
  · refine .inl ⟨by rw [versions, Stamps.stampAll_of_not_mem _ named], .inl ?_⟩
    by_cases inside : path ∈ state.servedPaths
    · have distinct : after.servedPaths.Nodup := aligned.distinct
      exact held_eq (rows_of_unmoved distinct positions served follows inside named) rfl
    · have none : after.servedAt path = none := servedAt_absent inside
      exact held_eq (by rw [none, servedAt_absent inside]) rfl

private theorem serveChanged_aligned (aligned : state.Aligned passes)
    (long : state.servedPaths.length ≤ outputs.length) :
    (state.serveChanged passes again answers state.servedPaths outputs).Aligned passes := by
  refine ⟨aligned.distinct, ?_, fun run member => ?_⟩
  · show ((List.map _ _).map _).length = state.servedPaths.length
    have length := aligned.length
    simp only [length_map, length_zipIdx, length_zip]
    omega
  · obtain ⟨served, entry, rfl⟩ := mem_map.mp member
    obtain ⟨place, inside, rfl⟩ := mem_map.mp entry
    have previous : place.1.2 ∈ state.served :=
      (of_mem_zip (fst_mem_of_mem_zipIdx inside)).2
    exact serveAgain_made _ _ _ _ (aligned.made _ previous)

end

section

variable [DecidableEq X] {now : Finmap fun _ : Path => List (AsyncFunctionFact X)}
  (versions : Stamps Path)

private theorem recordAsync_same {path : Path}
    (same : path ∈ paths → state.servedAsync.lookup path = now.lookup path) :
    (paths.foldl (state.recordAsync now) versions).version path = versions.version path := by
  induction paths generalizing versions with
  | nil => rfl
  | cons first later ih =>
    rw [foldl_cons, ih _ fun member => same (mem_cons_of_mem _ member), recordAsync]
    split
    · rfl
    · rename_i differ
      have other : path ≠ first := fun equal =>
        differ (equal ▸ same (equal ▸ mem_cons_self))
      split
      · exact Function.update_of_ne other _ _
      · exact Function.update_of_ne other _ _

private theorem recordAsync_next (path : Path) :
    versions.next ≤ (state.recordAsync now versions path).next := by
  unfold recordAsync
  split
  · exact le_rfl
  · split
    · exact Nat.le_succ _
    · exact le_rfl

variable (state now) in
private theorem recordAll_next (paths : List Path) :
    versions.next ≤ (paths.foldl (state.recordAsync now) versions).next := by
  induction paths generalizing versions with
  | nil => exact le_rfl
  | cons first later ih => exact (recordAsync_next versions first).trans (ih _)

private theorem recordAsync_changed {path : Path}
    (changed : state.servedAsync.lookup path ≠ now.lookup path) (versions : Stamps Path)
    (member : path ∈ paths) :
    let after := paths.foldl (state.recordAsync now) versions
    if path ∈ now ∨ path ∈ state.servedPaths then Stamps.Fresh versions after path
    else after.version path = none := by
  induction paths generalizing versions with
  | nil => exact nomatch member
  | cons first later ih =>
    intro after
    by_cases again : path ∈ later
    · have rest := ih (state.recordAsync now versions first) again
      split
      · rename_i rows
        rw [if_pos rows] at rest
        obtain ⟨version, given, above, bound⟩ := rest
        exact ⟨version, given, (recordAsync_next versions first).trans_lt above, bound⟩
      · rename_i rows
        rw [if_neg rows] at rest
        exact rest
    · obtain rfl := (mem_cons.mp member).resolve_right again
      have kept : after.version path = (state.recordAsync now versions path).version path :=
        recordAsync_same _ fun member => absurd member again
      have step : state.recordAsync now versions path =
          if path ∈ now ∨ path ∈ state.servedPaths then versions.stamp path
          else versions.drop path := if_neg changed
      split
      · rename_i rows
        rw [step, if_pos rows] at kept
        have bound := recordAll_next state now (versions.stamp path) later
        refine ⟨versions.next + 1, kept.trans (Function.update_self _ _ _), Nat.lt_succ_self _, ?_⟩
        show _ ≤ (later.foldl _ (state.recordAsync now versions path)).next
        rw [step, if_pos rows]
        exact bound
      · rename_i rows
        rw [step, if_neg rows] at kept
        exact kept.trans (Function.update_self _ _ _)

variable (state) in
private theorem recordAsyncVersions_next (facts : List (AsyncFunctionFact X)) :
    state.versions.next ≤ (state.recordAsyncVersions facts).versions.next :=
  recordAll_next state (byPath facts) _ _

variable (state) in
private theorem recordAsyncVersions_moves (facts : List (AsyncFunctionFact X)) (path : Path) :
    let after := state.recordAsyncVersions facts
    (after.versions.version path = state.versions.version path ∧
        after.servedAsync.lookup path = state.servedAsync.lookup path) ∨
      Stamps.Fresh state.versions after.versions path ∨
      (after.versions.version path = none ∧ after.servedAsync.lookup path = none ∧
        path ∉ state.servedPaths) := by
  intro after
  by_cases same : state.servedAsync.lookup path = (byPath facts).lookup path
  · exact .inl ⟨recordAsync_same _ fun _ => same, same.symm⟩
  · have member : path ∈ (state.servedAsync.keys ∪ (byPath facts).keys).sort (· ≤ ·) := by
      rw [Finset.mem_sort, Finset.mem_union, Table.mem_keys_iff, Table.mem_keys_iff]
      by_contra neither
      rw [not_or, not_not, not_not] at neither
      exact same (neither.1.trans neither.2.symm)
    have changed := recordAsync_changed same state.versions member
    split at changed
    · exact .inr (.inl changed)
    · rename_i rows
      rw [not_or] at rows
      exact .inr (.inr ⟨changed, Finmap.lookup_eq_none.mpr rows.1, rows.2⟩)

end

section

structure Serves (state after : PerFile W F X) (paths : List Path) : Prop where
  paths : after.servedPaths = paths
  merged : after.merged = state.merged
  async : after.servedAsync = state.servedAsync
  facts : after.servedFacts = state.servedFacts
  valid : after.versionsValid = state.versionsValid
  next : state.versions.next ≤ after.versions.next

@[simp] theorem stamps_next (state : PerFile W F X) : state.stamps.next = state.versions.next := by
  unfold stamps
  split <;> rfl

variable [DecidableEq V] [DecidableEq W] {ran : Passes W F X} {update : MergeUpdate}

private theorem serveAll_serves (answers : ℕ → W) :
    Serves state (state.serveAll passes answers paths outputs) paths := by
  refine ⟨rfl, rfl, rfl, rfl, rfl, ?_⟩
  refine le_trans (le_of_eq ?_) (Stamps.stampAll_next _ _)
  rw [Stamps.dropAll_next]
  exact (stamps_next state).symm

private theorem serveRuns_servedFacts :
    (state.serveRuns passes ran paths outputs update).servedFacts = state.servedFacts := by
  unfold serveRuns
  split <;> rfl

private theorem serveRuns_moves (aligned : state.Aligned passes) (distinct : paths.Nodup)
    (long : paths.length ≤ outputs.length)
    (again : state.servesAll update ran.indexPatched paths.length = false →
      state.servedPaths = paths) :
    let after := state.serveRuns passes ran paths outputs update
    after.Aligned passes ∧ Serves state after paths ∧ ∀ path, Moves state after path := by
  intro after
  unfold after serveRuns
  split
  · exact ⟨serveAll_aligned _ distinct long, serveAll_serves _, serveAll_moves aligned _ distinct long⟩
  · rename_i partly
    have partly := Bool.eq_false_of_not_eq_true partly
    obtain rfl := again partly
    have valid : state.versionsValid := by
      simp only [servesAll, Bool.or_eq_false_iff, Bool.not_eq_false'] at partly
      exact partly.1.2
    exact ⟨serveChanged_aligned _ _ aligned long,
      ⟨rfl, rfl, rfl, rfl, rfl, Stamps.stampAll_next _ _⟩,
      serveChanged_moves _ _ aligned long valid⟩

end

section

variable {ran : Passes W F X} {locations : List Location} {meaning : Path → ℕ → _}

def factsOf (passes : PassOutputs V W F X) (ran : Passes W F X) (paths : List Path)
    (locations : List Location) : List (AsyncFunctionFact X) :=
  tableFacts passes (ran.outputs (workIds paths locations ran.others)) (asyncWorks paths locations)

def FactsFollow (passes : PassOutputs V W F X) (ran : Passes W F X) (paths : List Path)
    (locations : List Location) (state : PerFile W F X) : Prop :=
  ∀ run ∈ state.servedPaths.zip state.served, run.1 ∉ paths → run.2.rows ≠ [] →
    run.1 ∈ state.servedAsync →
    (byPath (factsOf passes ran paths locations)).lookup run.1 ≠ state.servedAsync.lookup run.1

instance [DecidableEq F] [DecidableEq X] (passes : PassOutputs V W F X) (ran : Passes W F X)
    (paths : List Path) (locations : List Location) (state : PerFile W F X) :
    Decidable (state.FactsFollow passes ran paths locations) :=
  inferInstanceAs (Decidable (∀ run ∈ state.servedPaths.zip state.served, _ → _ → _ → _))

private theorem workIds_paths (others : List Path) :
    ((workIds paths locations others).filter WorkId.run).map WorkId.path = paths := by
  simp [workIds, filter_append, filter_map, Function.comp_def]

private theorem outputs_long :
    paths.length ≤ (ran.outputs (workIds paths locations ran.others)).length := by
  simp [Passes.outputs, workIds]

private def mergedWith (ran : Passes W F X) (paths : List Path) (locations : List Location)
    (state : PerFile W F X) : PerFile W F X :=
  { state with merged := ⟨workIds paths locations ran.others,
    ran.outputs (workIds paths locations ran.others)⟩ }

private theorem again_cases (sound : state.Sound passes meaning)
    (partly : state.servesAll (state.merged.update (workIds paths locations ran.others)
      (ran.outputs (workIds paths locations ran.others))) ran.indexPatched paths.length = false) :
    state.versionsValid ∧ state.servedPaths = paths := by
  simp only [servesAll, Bool.or_eq_false_iff, Merged.update, decide_eq_false_iff_not,
    not_not, Bool.not_eq_false'] at partly
  obtain ⟨⟨⟨same, -⟩, valid⟩, -⟩ := partly
  exact ⟨valid, by rw [← sound.works, same, workIds_paths]⟩

private theorem Serves.works (serves : Serves (state.mergedWith ran paths locations) after paths) :
    (after.merged.works.filter WorkId.run).map WorkId.path = after.servedPaths := by
  rw [serves.merged, serves.paths]
  exact workIds_paths ran.others

private theorem held_of_absent {path : Path} (before : path ∉ state.servedPaths)
    (later : path ∉ after.servedPaths)
    (facts : after.servedAsync.lookup path = state.servedAsync.lookup path) :
    after.held path = state.held path := by
  rw [held, held, servedAt_absent before, servedAt_absent later, facts]

private theorem held_of_left (follow : state.FactsFollow passes ran paths locations) {path : Path}
    (absent : path ∉ paths) (facts : path ∈ state.servedAsync)
    (same : (byPath (factsOf passes ran paths locations)).lookup path =
      state.servedAsync.lookup path) : ((state.servedAt path).map Served.rows).getD [] = [] := by
  cases found : state.servedAt path with
  | none => rfl
  | some run =>
    by_contra rows
    exact follow (path, run) (Table.mem_of_lookup_collect found) absent rows facts same

private theorem forgotten_sound (passes : PassOutputs V W F X) (state : PerFile W F X)
    (meaning : Path → ℕ → _) : state.forgotten.Sound passes meaning := by
  refine ⟨⟨nodup_nil, rfl, nofun⟩, rfl, nofun, ⟨fun _ _ found => (nomatch found), ?_⟩⟩
  intro path _
  rfl

theorem new_sound (passes : PassOutputs V W F X) (meaning : Path → ℕ → _) :
    PerFile.new.Sound passes meaning := forgotten_sound passes .new meaning

variable [DecidableEq X] in
private theorem recorded_moves {served : PerFile W F X}
    (serves : Serves (state.mergedWith ran paths locations) served paths)
    (moves : ∀ path, Moves state served path)
    (follow : state.FactsFollow passes ran paths locations) (path : Path) :
    let after := served.recordAsyncVersions (factsOf passes ran paths locations)
    Stamps.Steps state.stamps after.versions state.held after.held ([], []) path := by
  intro after
  have later : state.stamps.next ≤ served.versions.next := (stamps_next state).trans_le serves.next
  have recorded : served.versions.next ≤ after.versions.next :=
    recordAsyncVersions_next served _
  have stays : ∀ same : after.servedAsync.lookup path = served.servedAsync.lookup path,
      after.held path = served.held path := fun same => Prod.ext rfl (congrArg (·.getD []) same)
  rcases recordAsyncVersions_moves served (factsOf passes ran paths locations) path with
    ⟨version, same⟩ | ⟨version, given, above, bound⟩ | ⟨unversioned, gone, unserved⟩
  · rcases moves path with
      ⟨kept, held | ⟨absent, facts⟩⟩ | ⟨fresh, given, above, bound⟩ | ⟨none, blank⟩
    · exact .inl ⟨version.trans kept, (stays same).trans held⟩
    · refine .inl ⟨version.trans kept, ?_⟩
      rw [serves.async] at same
      have before := held_of_left follow (serves.paths ▸ absent) facts same
      have now : after.servedAt path = none := servedAt_absent absent
      rw [held, held, before, now, same]
      rfl
    · exact .inr (.inl ⟨fresh, version.trans given, above, bound.trans recorded⟩)
    · exact .inr (.inr ⟨version.trans none, (stays same).trans blank⟩)
  · exact .inr (.inl ⟨version, given, later.trans_lt above, bound⟩)
  · have now : after.servedAt path = none := servedAt_absent unserved
    refine .inr (.inr ⟨unversioned, ?_⟩)
    rw [held, now, gone]
    rfl

variable [DecidableEq V] [DecidableEq W]

private def servedFrom (passes : PassOutputs V W F X) (ran : Passes W F X) (paths : List Path)
    (locations : List Location) (state : PerFile W F X) : PerFile W F X :=
  (state.mergedWith ran paths locations).serveRuns passes ran paths
    (ran.outputs (workIds paths locations ran.others))
    (state.merged.update (workIds paths locations ran.others)
      (ran.outputs (workIds paths locations ran.others)))

variable (ran locations) in
private theorem servedFrom_moves (sound : state.Sound passes meaning) (distinct : paths.Nodup) :
    (state.servedFrom passes ran paths locations).Aligned passes ∧
      Serves (state.mergedWith ran paths locations)
        (state.servedFrom passes ran paths locations) paths ∧
      ∀ path, Moves state (state.servedFrom passes ran paths locations) path := by
  have aligned : (state.mergedWith ran paths locations).Aligned passes :=
    ⟨sound.distinct, sound.length, sound.made⟩
  exact serveRuns_moves aligned distinct outputs_long fun partly => (again_cases sound partly).2

variable [DecidableEq X] {rows : List (List (EntityFact F))} {facts : List (AsyncFunctionFact X)}

private theorem pooled_cases (answered : state.pooledDemandRuns passes ran paths locations =
      (.ok (some (rows, facts)), after)) :
    rows = (state.servedFrom passes ran paths locations).served.map Served.rows ∧
      ((facts = factsOf passes ran paths locations ∧
          after = { (state.servedFrom passes ran paths locations).recordAsyncVersions facts with
            servedFacts := some (asyncWorks paths locations, facts) }) ∨
        (state.servesAll (state.merged.update (workIds paths locations ran.others)
            (ran.outputs (workIds paths locations ran.others))) ran.indexPatched paths.length = false ∧
          (∃ count, state.servedFacts = some (count, facts)) ∧
          after = state.servedFrom passes ran paths locations)) := by
  unfold pooledDemandRuns at answered
  split at answered
  · exact nomatch answered
  · dsimp only at answered
    split at answered
    · simp at answered
    · split at answered
      · simp only [Prod.mk.injEq, Except.ok.injEq, Option.some.injEq] at answered
        obtain ⟨⟨rfl, rfl⟩, rfl⟩ := answered
        exact ⟨rfl, .inl ⟨rfl, rfl⟩⟩
      · rename_i still
        simp only [Prod.mk.injEq, Except.ok.injEq, Option.some.injEq] at answered
        obtain ⟨⟨rfl, rfl⟩, rfl⟩ := answered
        simp only [factsMoved, Bool.or_eq_true, not_or, Bool.not_eq_true, decide_eq_true_eq,
          not_not] at still
        obtain ⟨⟨every, count⟩, -⟩ := still
        rw [serveRuns_servedFacts] at count ⊢
        obtain ⟨⟨count, facts⟩, found, -⟩ := Option.map_eq_some_iff.mp count
        replace found : state.servedFacts = some (count, facts) := found
        exact ⟨rfl, .inr ⟨every, ⟨count, by simp [found]⟩, rfl⟩⟩

private theorem pooledDemandRuns_sound (sound : state.Sound passes meaning) (distinct : paths.Nodup)
    (follow : state.FactsFollow passes ran paths locations)
    (answered : state.pooledDemandRuns passes ran paths locations =
      (.ok (some (rows, facts)), after)) : after.versionsValid ∧ after.servedPaths = paths ∧
      rows = after.served.map Served.rows ∧ after.servedAsync = byPath facts ∧
      state.versions.next ≤ after.versions.next ∧ ∃ extended, after.Sound passes extended ∧
        ∀ path version, version ≤ state.versions.next →
          extended path version = meaning path version := by
  obtain ⟨aligned, serves, moves⟩ := servedFrom_moves ran locations sound distinct
  obtain ⟨rfl, ⟨rfl, rfl⟩ | ⟨partly, ⟨count, found⟩, rfl⟩⟩ := pooled_cases answered
  · have later := serves.next.trans (recordAsyncVersions_next
      (state.servedFrom passes ran paths locations) (factsOf passes ran paths locations))
    obtain ⟨extended, means, older⟩ := sound.means.move
      ((stamps_next state).trans_le later) (recorded_moves serves moves follow)
    refine ⟨rfl, serves.paths, rfl, rfl, later, extended,
      ⟨⟨aligned.distinct, aligned.length, aligned.made⟩, serves.works, fun count facts found => ?_,
        means⟩, ?_⟩
    · obtain ⟨-, rfl⟩ := Prod.mk.inj (Option.some.inj found)
      rfl
    · exact fun path version old => older path version (old.trans_eq (stamps_next state).symm)
  · obtain ⟨valid, same⟩ := again_cases sound partly
    let served := state.servedFrom passes ran paths locations
    have current : served.stamps = served.versions := if_pos (serves.valid.trans valid)
    have facts_same : served.servedAsync = state.servedAsync := serves.async
    have kept : ∀ path,
        Stamps.Steps state.stamps served.versions state.held served.held ([], []) path := by
      intro path
      rcases moves path with ⟨version, held | ⟨absent, -⟩⟩ | fresh | blank
      · exact .inl ⟨version, held⟩
      · have before : path ∉ state.servedPaths := by rwa [same, ← serves.paths]
        exact .inl ⟨version, held_of_absent before absent (by rw [facts_same])⟩
      · exact .inr (.inl fresh)
      · exact .inr (.inr blank)
    obtain ⟨extended, means, older⟩ := sound.means.move
      ((stamps_next state).trans_le serves.next) kept
    refine ⟨serves.valid.trans valid, serves.paths, rfl, facts_same.trans (sound.facts count _ found),
      serves.next, extended,
      ⟨aligned, serves.works, fun count facts found => ?_, current ▸ means⟩, ?_⟩
    · exact facts_same.trans (sound.facts count facts (serves.facts.symm.trans found))
    · exact fun path version old => older path version (old.trans_eq (stamps_next state).symm)

private theorem pooled_unanswered {outcome : Except String (Option _)}
    (ended : state.pooledDemandRuns passes ran paths locations = (outcome, after)) :
    (∀ error, outcome = .error error → after = state) ∧
      (outcome = .ok none → after.versions = state.versions) := by
  unfold pooledDemandRuns at ended
  split at ended
  · cases ended
    exact ⟨fun _ _ => rfl, nofun⟩
  · dsimp only at ended
    split at ended
    · cases ended
      exact ⟨nofun, fun _ => rfl⟩
    · split at ended <;> cases ended <;> exact ⟨nofun, nofun⟩

end

end PerFile

private theorem byPath_append (facts : List (AsyncFunctionFact X)) (fact : AsyncFunctionFact X) :
    byPath (facts ++ [fact]) = (byPath facts).insert fact.expression.path.clean
      (((byPath facts).lookup fact.expression.path.clean).getD [] ++ [fact]) := by
  simp only [byPath, foldl_append, foldl_cons, foldl_nil]

private theorem asyncFactsAt_placed (facts : List (AsyncFunctionFact X)) (path : Path) :
    asyncFactsAt (facts.map fun fact => (fact.expression.path, fact)) path =
      ((byPath facts).lookup path).getD [] := by
  induction facts using List.reverseRecOn with
  | nil => rfl
  | append_singleton facts fact ih =>
    rw [byPath_append, Table.lookup_insert_eq, map_append, asyncFactsAt, filter_append,
      map_append, ← asyncFactsAt, ih]
    by_cases same : fact.expression.path.clean = path
    · subst same
      simp
    · simp [same, Ne.symm same]

namespace Project

variable {ω H K : Type} [DecidableEq V] [DecidableEq W] [DecidableEq X]
  {compiler : Compiler ω H K W F X} {project : Project ω W F X}
  {runs : List (Path × List (EntityDemand K))} {locations : List Location}

theorem perFileDemandRuns_sound {meaning : Path → ℕ → _}
    (sound : project.perFile.Sound passes meaning) (distinct : (runs.map Prod.fst).Nodup)
    (follow : project.perFile.FactsFollow passes
      (compiler.runPasses project.compiler runs locations).1 (runs.map Prod.fst) locations) :
    let result := perFileDemandRuns compiler passes runs locations project
    project.perFile.versions.next ≤ result.2.perFile.versions.next ∧
      (∀ answers facts, result.1 = .ok (answers, facts) → result.2.perFile.versionsValid →
        result.2.perFile.servedPaths = runs.map Prod.fst ∧
        answers = result.2.perFile.served.map (fun run => .rows run.rows) ∧
        ∀ path, asyncFactsAt facts path = (result.2.perFile.held path).2) ∧
      ∃ extended, result.2.perFile.Sound passes extended ∧
        ∀ path version, version ≤ project.perFile.versions.next →
          extended path version = meaning path version := by
  intro result
  unfold result perFileDemandRuns
  dsimp only
  split
  · rename_i error state ended
    obtain rfl := (PerFile.pooled_unanswered ended).1 error rfl
    exact ⟨le_rfl, nofun, meaning, sound, fun _ _ _ => rfl⟩
  · rename_i rows facts state answered
    obtain ⟨-, paths, rfl, async, later, extended⟩ :=
      PerFile.pooledDemandRuns_sound sound distinct follow answered
    refine ⟨later, fun answers facts returned _ => ?_, extended⟩
    cases returned
    refine ⟨paths, map_map, fun path => ?_⟩
    rw [asyncFactsAt_placed, ← async]
    rfl
  · rename_i state ended
    have versions := (PerFile.pooled_unanswered ended).2 rfl
    exact ⟨le_of_eq (congrArg Stamps.next versions.symm), nofun, meaning,
      PerFile.forgotten_sound passes state meaning, fun _ _ _ => rfl⟩

end Project

end SolidChecker.Producer
