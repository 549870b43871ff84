/- source: solid-facts-backend/src/lib.rs; typefacts/src/session.rs;
     apps/solid-typefacts/src/module_graph.rs -/

import SolidChecker.Backend.AttestedRuns
import SolidChecker.Client.Lineage
import SolidChecker.Client.Overlays

namespace SolidChecker.Backend

open Foundation (Act)
open Foundation.Act (Meets Stays)
open Producer (Path)
open Client (FileChange State Process Environment SessionError Session Level Follows Reads)

variable {S O A C R F B I X T : Type}

abbrev Run (S : Type) := ℕ × (Bool × List (List (FileChange Path S)) × ℕ)

/-- What producers answer. A restarted one may resolve imports as it likes; within one process only
an update changes rows, and one answered `graphKept` only the rows of its files. -/
structure World (S R F B I X : Type) where
  host : Client.Host S X
  /-- What stands for the text of a deleted file. -/
  noText : S
  /-- The files of the program with their imports, in the order they are told. -/
  rows : Run S → Finmap fun _ : Path => List (AttestedImport I)
  graphKept : Run S → List (FileChange Path S) → Bool
  table : Client.FactTable Path S → List (Path × R) → TypeScriptTable F B
  foreign : Path → R → Option Path
  /-- The caller's flag, each time it is polled. -/
  cancelled : ℕ → Bool
  kept_rows : ∀ (number : ℕ) (process : Process Path S) (changes : List (FileChange Path S)),
    graphKept (number, process.seen) changes = true →
    ∀ path, (∀ change ∈ changes, host.absolute change.path ≠ path) →
      (rows (number, process.advanced changes)).lookup path =
        (rows (number, process.seen)).lookup path

/-- The program's files asked for, all if none is named, and the names of no file. -/
def importScope (files : Finset Path) (requested : List Path) : List Path × List Path :=
  if requested = [] then (files.sort (· ≤ ·), [])
  else
    let named := (requested.map Path.clean).toFinset
    ((named ∩ files).sort (· ≤ ·), (named \ files).sort (· ≤ ·))

def moduleGraphOf (rows : Finmap fun _ : Path => List (AttestedImport I)) (requested : List Path) :
    ModuleGraph I :=
  let scope := importScope rows.keys requested
  ⟨scope.1.flatMap fun path => ((rows.lookup path).getD []).map fun row => (path, row), scope.2⟩

/-- A client session, with what its last acknowledged update said about the module graph. -/
structure Linked (S R : Type) where
  state : State Path S R
  graph : Option UpdateGraph
  polled : ℕ

namespace Linked

def running (linked : Linked S R) : Option (Run S) :=
  linked.state.now.map fun now => (now.1, now.2.seen)

def lastUpdateGraph (linked : Linked S R) : Option UpdateGraph :=
  linked.graph.filter fun update =>
    decide (update.generation = linked.state.session.generation) &&
      decide (update.epoch = linked.state.session.restartEpoch)

def moved (linked : Linked S R) (state : State Path S R) : Linked S R :=
  { linked with
    state
    graph := if state.session.restartEpoch = linked.state.session.restartEpoch then linked.graph
      else none }

def call {α : Type} (step : Client.Step Path S R α) :
    Act (Linked S R) (BackendError (SessionError Path)) α := fun linked =>
  ((step linked.state).1.mapError .other, linked.moved (step linked.state).2)

private theorem call_read {α β : Type} {step : Client.Step Path S R α} {view : α → Linked S R → β}
    {linked : Linked S R} {result : Except (SessionError Path) α} {state : State Path S R}
    (outcome : step linked.state = (result, state)) :
    (call step >>= fun value => Act.read (view value)) linked =
      ((result.map fun value => view value (linked.moved state)).mapError .other, linked.moved state) := by
  have called : call step linked = (result.mapError .other, linked.moved state) := by
    rw [call, outcome]
  cases result with
  | error error => exact Act.bind_of_error called _
  | ok value => exact Act.bind_of_ok called _

end Linked

section

variable [DecidableEq R] (world : World S R F B I X) (env : Environment Path) (depth : ℕ)

def World.fileChange (change : WireChange S) : FileChange Path S :=
  ⟨change.path, change.source.getD world.noText, change.source.isNone, change.version⟩

def updateLinked (wire : List (WireChange S)) :
    Act (Linked S R) (BackendError (SessionError Path)) PUnit := fun linked =>
  let changes := wire.map world.fileChange
  let kept := linked.running.any fun producer => world.graphKept producer changes
  match Linked.call (Session.update env depth changes) linked with
  | (.error error, after) => (.error error, after)
  | (.ok done, after) => (.ok done, if changes.isEmpty then after else { after with
      graph := if after.state.session.restartEpoch = linked.state.session.restartEpoch then
          some ⟨after.state.session.restartEpoch, after.state.session.generation, kept⟩
        else none })

def moduleGraphLinked (asked : List Path) :
    Act (Linked S R) (BackendError (SessionError Path)) (ModuleGraph I) := do
  let response ← Linked.call (Session.query env .modules)
  Act.read fun linked => moduleGraphOf (world.rows (linked.state.started, response.process.seen)) asked

def askEach : List (List Path) → Act (Linked S R) (BackendError (SessionError Path)) PUnit
  | [] => pure ⟨⟩
  | asked :: later => do
      let _ ← moduleGraphLinked world env asked
      askEach later

/-- A native session's Type Facts session; `redirects` are the files its transform asks about. -/
def linked (redirects : ProjectFacts S A C F B I → List (List Path)) :
    TypeFacts S A C R F B I (SessionError Path) (Linked S R) where
  updateDuring := updateLinked world env depth
  semanticGrouped groups := do
    let table ← Linked.call (Session.analyzeGroups env (groups.map fun (path, run) =>
      ⟨path, run, world.foreign path run⟩))
    Act.read fun linked => { world.table table groups with generation := linked.state.session.generation }
  moduleGraph := moduleGraphLinked world env
  transform facts := askEach world env (redirects facts)
  restartEpoch linked := linked.state.session.restartEpoch
  lastUpdateGraph := Linked.lastUpdateGraph
  cancelled linked := (world.cancelled linked.polled, { linked with polled := linked.polled + 1 })
  isTransportFailure := SessionError.isTransportFailure

def World.producers : Producers (Linked S R) (Run S) I where
  usable linked := Level linked.state
  running := Linked.running
  counted producer := producer.1 < 2 ^ 64
  answer producer asked := moduleGraphOf (world.rows producer) asked

end

section

variable (rows : Finmap fun _ : Path => List (AttestedImport I)) {asked : List Path} {path : Path}

private theorem mem_named (member : path ∈ asked) :
    path ∈ (asked.map Path.clean).toFinset ↔ path.clean = path := by
  rw [List.mem_toFinset, List.mem_map]
  constructor
  · rintro ⟨other, -, rfl⟩
    exact Path.clean_clean other
  · exact fun clean => ⟨path, member, clean⟩

private theorem mem_unknown (member : path ∈ asked) : path ∈ (moduleGraphOf rows asked).unknownImportPaths ↔
      path.clean = path ∧ path ∉ rows.keys := by
  have some_asked : asked ≠ [] := List.ne_nil_of_mem member
  show path ∈ (importScope rows.keys asked).2 ↔ _
  rw [importScope, if_neg some_asked, Finset.mem_sort, Finset.mem_sdiff, mem_named member]

private theorem rowsOf_flatMap {answered unknown : List Path} (distinct : answered.Nodup) (path : Path) :
    (⟨answered.flatMap fun path => ((rows.lookup path).getD []).map fun row => (path, row), unknown⟩ :
      ModuleGraph I).rowsOf path = if path ∈ answered then (rows.lookup path).getD [] else [] := by
  unfold ModuleGraph.rowsOf
  induction answered with
  | nil => rfl
  | cons first answered ih =>
    obtain ⟨absent, later⟩ := List.nodup_cons.mp distinct
    rw [List.flatMap_cons, List.filter_append, List.map_append]
    have rest := ih later
    rw [rest]
    by_cases same : first = path
    · subst same
      rw [if_neg absent, if_pos List.mem_cons_self, List.append_nil, List.filter_map,
        List.filter_eq_self.mpr (by simp), List.map_map]
      exact List.map_id' _
    · rw [List.filter_eq_nil_iff.mpr (by simp [same])]
      simp only [List.map_nil, List.nil_append, List.mem_cons, Ne.symm same, false_or]

private theorem rowsOf_moduleGraph (member : path ∈ asked) : (moduleGraphOf rows asked).rowsOf path =
      if path.clean = path ∧ path ∈ rows.keys then (rows.lookup path).getD [] else [] := by
  have some_asked : asked ≠ [] := List.ne_nil_of_mem member
  have distinct : (importScope rows.keys asked).1.Nodup := by
    rw [importScope, if_neg some_asked]
    exact Finset.sort_nodup ((asked.map .clean).toFinset ∩ rows.keys) (· ≤ ·)
  have inside : path ∈ (importScope rows.keys asked).1 ↔ path.clean = path ∧ path ∈ rows.keys := by
    rw [importScope, if_neg some_asked, Finset.mem_sort, Finset.mem_inter, mem_named member]
  refine (rowsOf_flatMap rows distinct path).trans ?_
  simp only [inside]

private theorem producers_apart (world : World S R F B I X) : world.producers.Apart where
  unknown _ _ _ member :=
    (mem_unknown _ member).trans (mem_unknown _ (List.mem_singleton.mpr rfl)).symm
  rows _ _ _ member :=
    (rowsOf_moduleGraph _ member).trans (rowsOf_moduleGraph _ (List.mem_singleton.mpr rfl)).symm

private theorem told_congr (world : World S R F B I X) {producer earlier : Run S}
    (same : (world.rows producer).lookup path = (world.rows earlier).lookup path) :
    world.producers.told producer path = world.producers.told earlier path := by
  have keys : path ∈ (world.rows producer).keys ↔ path ∈ (world.rows earlier).keys := by
    rw [Foundation.Table.mem_keys_iff, Foundation.Table.mem_keys_iff, same]
  have alone : path ∈ [path] := List.mem_singleton.mpr rfl
  show (if path ∈ (moduleGraphOf (world.rows producer) [path]).unknownImportPaths then none else
    some ((moduleGraphOf (world.rows producer) [path]).rowsOf path)) =
    if path ∈ (moduleGraphOf (world.rows earlier) [path]).unknownImportPaths then none else
      some ((moduleGraphOf (world.rows earlier) [path]).rowsOf path)
  simp only [mem_unknown _ alone, rowsOf_moduleGraph _ alone, keys, same]

end

section

variable [DecidableEq R] (world : World S R F B I X) {env : Environment Path} (depth : ℕ)
  (redirects : ProjectFacts S A C F B I → List (List Path))

variable (env) in
private theorem kept_of_reads {now : Linked S R} {state : State Path S R} (reads : Reads now.state state) :
    Kept world.producers (linked world env depth redirects) now (now.moved state) := by
  refine ⟨reads.toLevel, ?_⟩
  rcases reads.follows with moved | ⟨epoch, generation, same⟩
  · exact .inl moved
  · refine .inr ⟨epoch, ?_, fun producer ⟨running, few⟩ => ?_⟩
    · show Option.filter _ (if _ then now.graph else none) = Option.filter _ now.graph
      rw [if_pos epoch]
      simp only [Linked.moved, epoch, generation]
    · obtain ⟨⟨number, process⟩, here, rfl⟩ := Option.map_eq_some_iff.mp running
      obtain ⟨earlier, there, seen⟩ := same number process here few
      exact ⟨Option.map_eq_some_iff.mpr ⟨(number, earlier), there, by rw [seen]⟩, few⟩

private theorem moduleGraphLinked_serves (asked : List Path) (now : Linked S R)
    (usable : world.producers.usable now) :
    Kept world.producers (linked world env depth redirects) now
        (moduleGraphLinked world env asked now).2 ∧
      ∀ graph, (moduleGraphLinked world env asked now).1 = .ok graph → ∃ producer,
        world.producers.running (moduleGraphLinked world env asked now).2 = some producer ∧
          graph = world.producers.answer producer asked := by
  have reading : ∀ generation, (.modules generation : Client.Request Path S R).Reading :=
    fun _ => ⟨nofun, nofun⟩
  have answered := (Session.reads_conduct env).query reading now.state ⟨usable, .refl now.state⟩
  have kept := kept_of_reads world env depth redirects answered.1
  generalize outcome : Session.query env .modules now.state = reply at answered kept
  obtain ⟨result, after⟩ := reply
  rw [moduleGraphLinked, Linked.call_read outcome]
  cases result with
  | error error => exact ⟨kept, nofun⟩
  | ok response =>
    refine ⟨kept, fun graph told => ⟨(after.started, response.process.seen), ?_, ?_⟩⟩
    · exact Option.map_eq_some_iff.mpr ⟨_, answered.2 response rfl, rfl⟩
    · exact (Except.ok.inj told).symm

private theorem askEach_kept (questions : List (List Path)) (origin : Linked S R) :
    Stays (Kept world.producers (linked world env depth redirects) origin)
      (askEach world env questions) := by
  induction questions with
  | nil => exact .pure _
  | cons asked questions ih =>
    refine .bind (fun now kept => ?_) fun _ => ih
    obtain ⟨still, since⟩ :=
      (moduleGraphLinked_serves world depth redirects asked now kept.1).1
    exact ⟨still, kept.2.trans since⟩

private theorem updateLinked_serves {wire : List (WireChange S)}
    (some_changes : wire ≠ []) (now : Linked S R) (usable : world.producers.usable now) :
    Updates world.producers (linked world env depth redirects) world.host.absolute wire now
      (updateLinked world env depth wire now) := by
  have nonempty : (wire.map world.fileChange).isEmpty = false := by simpa using some_changes
  have updated := (Session.updating_lands env (wire.map world.fileChange)).update depth now.state
    ⟨usable, .refl now.state⟩
  rw [nonempty] at updated
  unfold updateLinked
  generalize outcome : Session.update env depth (wire.map world.fileChange) now.state = reply
    at updated
  obtain ⟨result, after⟩ := reply
  have called : Linked.call (Session.update env depth (wire.map world.fileChange)) now =
      (result.mapError .other, now.moved after) := by
    rw [Linked.call, outcome]
  dsimp only
  rw [called]
  cases result with
  | error error => exact kept_of_reads world env depth redirects updated
  | ok done =>
    simp only [Except.mapError, nonempty]
    obtain ⟨level, lands⟩ := updated
    refine ⟨level, ?_⟩
    rcases lands with moved | ⟨epoch, same⟩
    · exact .inl moved
    · refine .inr ⟨epoch, fun producer ⟨running, few⟩ => ?_⟩
      obtain ⟨⟨number, process⟩, here, rfl⟩ := Option.map_eq_some_iff.mp running
      obtain ⟨earlier, there, seen⟩ := same number process here few
      have was : now.running = some (number, earlier.seen) :=
        Option.map_eq_some_iff.mpr ⟨(number, earlier), there, rfl⟩
      refine ⟨(number, earlier.seen), ⟨was, few⟩, fun update graph keeps path others => ?_⟩
      obtain ⟨told, -⟩ := Option.filter_eq_some_iff.mp graph
      replace told : (if after.session.restartEpoch = now.state.session.restartEpoch then
        some _ else none) = some update := told
      rw [if_pos epoch] at told
      cases told
      rw [was] at keeps
      refine told_congr world ?_
      rw [seen]
      refine world.kept_rows number earlier _ keeps path fun change member => ?_
      obtain ⟨sent, listed, rfl⟩ := List.mem_map.mp member
      exact others sent listed

private theorem linked_serves :
    Serves world.producers (linked world env depth redirects) world.host.absolute where
  apart := producers_apart world
  semanticGrouped groups now usable := by
    have reads := (Session.reads_conduct env).analyzeGroups
      (groups.map fun (path, run) => ⟨path, run, world.foreign path run⟩) now.state
      ⟨usable, .refl now.state⟩
    have kept := kept_of_reads world env depth redirects reads.1
    generalize outcome : Session.analyzeGroups env (groups.map fun (path, run) =>
      ⟨path, run, world.foreign path run⟩) now.state = reply at kept
    exact (congrArg Prod.snd (Linked.call_read outcome)).symm ▸ kept
  transform facts now usable := askEach_kept world depth redirects (redirects facts) now now
    ⟨usable, .refl now⟩
  cancelled now usable := ⟨usable, .inr ⟨rfl, rfl, fun _ same => same⟩⟩
  moduleGraph asked now usable := moduleGraphLinked_serves world depth redirects asked now usable
  updateDuring wire now some_changes usable :=
    updateLinked_serves world depth redirects some_changes now usable
  lastUpdateGraph now update graph := by
    have current := (Option.filter_eq_some_iff.mp graph).2
    rw [Bool.and_eq_true, decide_eq_true_eq, decide_eq_true_eq] at current
    exact current.2

end

section

open NativeSession

variable [DecidableEq R]

private theorem opened_settled {tools : Tools S O A C R F (SessionError Path)} {world : World S R F B I X}
    {env : Environment Path} {depth : ℕ} {redirects : ProjectFacts S A C F B I → List (List Path)}
    {opening : Opening S O}
    (normal : ∀ file ∈ opening.sources, tools.normalizePath file.path = file.path)
    {typescript : Linked S R} (level : Level typescript.state) :
    Settled tools world.producers (linked world env depth redirects) (opened opening typescript) := by
  refine ⟨⟨level, nofun, nofun⟩, fun path file found => ?_, soundCache_empty _⟩
  have path_eq := collected_path found
  obtain ⟨source, member, same⟩ := List.mem_map.mp (Foundation.Table.mem_of_lookup_collect found)
  obtain ⟨rfl, rfl⟩ := Prod.mk.inj same
  exact ⟨path_eq, normal source member⟩

/-- In every run over a client session, with paths in normal form and edits that name each file once
and as the producer does: when a call builds facts of a non-empty program, a producer runs, and if
fewer than 2^64 processes were started up to it, the facts carry the imports a full attestation of
their files by it gives. -/
theorem builds_attest_running_producer (world : World S R F B I X) {env : Environment Path}
    (depth : ℕ) (redirects : ProjectFacts S A C F B I → List (List Path))
    (tools : Tools S O A C R F (SessionError Path)) {sources : List (FileChange Path S)}
    {earlier : List (Client.Call Path S R)} {use : Client.Use Path S R}
    (ran : Client.Use.run env depth sources earlier = some use) (graph : Option UpdateGraph)
    (opening : Opening S O)
    (normal : ∀ file ∈ opening.sources, tools.normalizePath file.path = file.path)
    (calls : List (Call S O T)) (call : Call S O T)
    (plain : ∀ other ∈ call :: calls, Plain tools world.host.absolute other.changes) :
    let ts := linked world env depth redirects
    let session := calls.foldl (perform ts tools) (opened opening ⟨use.state, graph, 0⟩)
    ∀ facts, builds ts tools session call = some facts → facts.files ≠ [] →
      ∃ producer, (perform ts tools session call).typescript.running = some producer ∧
        (producer.1 < 2 ^ 64 → facts.resolvedImports =
          some (world.producers.fullAttestation producer (facts.files.map FileFacts.path))) := by
  intro ts session facts built some_files
  obtain ⟨here, before⟩ := List.forall_mem_cons.mp plain
  have serves : Serves _ ts _ := linked_serves world depth redirects
  have settled : Settled tools world.producers ts session := run_settled serves calls before
    (opened_settled normal (Client.Use.run_level ran))
  exact (perform_attests serves here settled).2 facts built some_files

def answering : Environment Path := ⟨fun _ => none, fun _ _ => .answered true 0⟩

/-- One file with one import, whatever happens; every update keeps the module graph. -/
def oneImport : World Bool Bool Unit Unit Unit Unit where
  host := ⟨['/'], fun _ => ()⟩
  noText := false
  rows _ := Finmap.singleton ['/', 'a'] [⟨0, 1, ()⟩]
  graphKept _ _ := true
  table _ _ := ⟨['p'], 0, [(['/', 'a'], ['a'])], [], ()⟩
  foreign _ _ := none
  cancelled _ := false
  kept_rows _ _ _ _ _ _ := rfl

def Tools.mapError {ε δ : Type} (tell : ε → δ) (tools : Tools S O A C R F ε) : Tools S O A C R F δ :=
  { tools with
    parse := fun path source => (tools.parse path source).mapError tell
    compile := fun request => (tools.compile request).mapError tell
    plan := fun file options => (tools.plan file options).mapError tell
    plan_generation := fun file generation options =>
      congrArg (Except.mapError tell) (tools.plan_generation file generation options) }

def openOne : Opening Bool Unit := ⟨['p'], [⟨['/', 'a'], false, ()⟩], ∅, plain_empty⟩

def rewriteOne : SourceChange Bool Unit := ⟨['/', 'a'], 1, some false, ()⟩

def oneTools : Tools Bool Unit Unit Unit Bool Unit (SessionError Path) :=
  twoTexts.mapError fun _ => .closed

def editOf (changes : List (SourceChange Bool Unit)) : Call Bool Unit Unit :=
  .edit changes false () fun _ => false

def connectedOne : Client.Use Path Bool Bool :=
  ⟨⟨⟨1, 0, some ⟨true, true, [], 1, 0, none⟩, [], ∅, 0, ∅, false⟩, 1,
    Function.update (fun _ => 0) .ordinary 1⟩, []⟩

private theorem connectedOne_ran : Client.Use.run answering 1 [] [] = some connectedOne := rfl

def linkedOne : TypeFacts Bool Unit Unit Bool Unit Unit Unit (SessionError Path) (Linked Bool Bool) :=
  linked oneImport answering 1 fun _ => []

def analyzedOne : NativeSession Bool Unit Unit Unit Bool Unit Unit Unit (Linked Bool Bool) :=
  [(.analyze false : Call Bool Unit Unit)].foldl (perform linkedOne oneTools)
    (opened openOne ⟨connectedOne.state, none, 0⟩)

theorem builds_attest_running_producer_once :
    (builds linkedOne oneTools analyzedOne (editOf [rewriteOne])).isSome = true ∧
      ∀ facts, builds linkedOne oneTools analyzedOne (editOf [rewriteOne]) = some facts →
        facts.files ≠ [] → ∃ producer,
          (perform linkedOne oneTools analyzedOne (editOf [rewriteOne])).typescript.running =
            some producer ∧
          facts.resolvedImports =
            some (oneImport.producers.fullAttestation producer (facts.files.map FileFacts.path)) := by
  have plain : ∀ other ∈ [editOf [rewriteOne], .analyze false],
      Plain oneTools oneImport.host.absolute other.changes := by
    intro other member
    rcases List.mem_cons.mp member with rfl | later
    · exact ⟨by decide, by decide, by decide⟩
    · obtain rfl := List.mem_singleton.mp later
      exact ⟨List.nodup_nil, nofun, nofun⟩
  refine ⟨by decide +kernel, fun facts built some_files => ?_⟩
  obtain ⟨producer, running, attested⟩ := builds_attest_running_producer oneImport 1 (fun _ => [])
    oneTools connectedOne_ran none openOne (by decide) [.analyze false] _ plain facts built some_files
  have first : (perform linkedOne oneTools analyzedOne (editOf [rewriteOne])).typescript.running.map
      Prod.fst = some 1 := by decide +kernel
  obtain ⟨other, there, number⟩ := Option.map_eq_some_iff.mp first
  cases there.symm.trans running
  exact ⟨producer, running, attested (number ▸ by decide)⟩

/-- What is attested of the file after an edit, and what its running producer tells. -/
def importsOne (changes : List (SourceChange Bool Unit)) : Option (ℕ × ℕ) := do
  let facts ← builds linkedOne oneTools analyzedOne (editOf changes)
  let producer ← (perform linkedOne oneTools analyzedOne (editOf changes)).typescript.running
  let kept ← (← facts.resolvedImports).lookup ['/', 'a']
  let full ← (oneImport.producers.fullAttestation producer
    (facts.files.map FileFacts.path)).lookup ['/', 'a']
  pure (kept.length, full.length)

/-- An edit that names a file twice leaves it without the import it has. -/
theorem edit_twice_loses_imports : importsOne [rewriteOne, rewriteOne] = some (0, 1) := by
  decide +kernel

end

end SolidChecker.Backend
