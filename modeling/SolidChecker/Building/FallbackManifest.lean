/- source: apps/solid-typefacts/src/project.rs, import_graph.rs, retained.rs, closure.rs -/

import SolidChecker.Building.BuildQueries
import SolidChecker.Producer.Fallback

namespace SolidChecker.Building

open Foundation List
open Foundation.Closure (Reaches)
open Producer (Path FileChange UpdateOutcome EntityDemand EntityFact EntityCells Location RunAnswer
  Backend Codec Call DemandClosure DemandGroup Built rowAt rowAt_eq_some_iff)

section

variable {H D : Type}

structure Program.Listed (program : Program H D) : Prop where
  distinct : (program.sourceFiles.map fun file => file.fileName.clean).Nodup
  found : ∀ path file, program.getSourceFile path = some file →
    file ∈ program.sourceFiles ∧ file.fileName.clean = path.clean

def Program.Holds (program : Program H D) (path : Path) (text : H) : Prop :=
  ∃ file ∈ program.sourceFiles, file.isDeclarationFile = false ∧ file.fileName.clean = path ∧
    file.text = text

structure Kept (program : Program H D) (digests : List (Path × H)) (dirty : List Path) : Prop where
  ordered : digests.Pairwise fun left right => left.1 < right.1
  rows : ∀ path ∉ dirty, ∀ text, (path, text) ∈ digests ↔ program.Holds path text

variable {program : Program H D} {digests after : List (Path × H)} {dirty : List Path} {path : Path}
  (listed : program.Listed)

include listed

private theorem kept_digestsOf : Kept program (digestsOf program) [] := by
  refine ⟨Grouping.sortByKey_strict Prod.fst ?_, fun path _ text => ?_⟩
  · rw [map_map]
    exact listed.distinct.sublist (filter_sublist.map _)
  · unfold digestsOf
    rw [(Grouping.sortByKey_perm _ _).mem_iff]
    simp [Program.Holds, and_assoc]

private theorem Kept.patch (kept : Kept program digests (path :: dirty))
    (patched : patchDigest program digests path = some after) : Kept program after dirty := by
  obtain ⟨file, found, patched⟩ := Option.bind_eq_some_iff.mp patched
  obtain ⟨found, own⟩ := Option.filter_eq_some_iff.mp found
  simp only [Bool.and_eq_true, Bool.not_eq_true', decide_eq_true_eq] at own
  obtain ⟨member, -⟩ := listed.found path file found
  split at patched
  · rename_i present
    cases patched
    let patch := fun digest : Path × H => if digest.1 = path then (path, file.text) else digest
    have keys : ∀ digest, (patch digest).1 = digest.1 := fun digest => by
      unfold patch
      split
      · rename_i same
        exact same.symm
      · rfl
    refine ⟨pairwise_map.mpr (kept.ordered.imp fun {_ _} less => by rwa [keys, keys]),
      fun other clean text => mem_map.trans ?_⟩
    by_cases same : other = path
    · subst same
      have only : program.Holds other text ↔ text = file.text := by
        refine ⟨?_, fun same => ⟨file, member, own.1, own.2, same.symm⟩⟩
        rintro ⟨twin, listing, -, name, rfl⟩
        rw [inj_on_of_nodup_map listed.distinct listing member (name.trans own.2.symm)]
      rw [only]
      constructor
      · rintro ⟨digest, -, eq⟩
        have key : digest.1 = other := (keys digest).symm.trans (congrArg Prod.fst eq)
        rw [if_pos key] at eq
        exact (congrArg Prod.snd eq).symm
      · rintro rfl
        obtain ⟨digest, listing, key⟩ := mem_map.mp present
        exact ⟨digest, listing, if_pos key⟩
    · rw [← kept.rows other (by simp [same, clean])]
      constructor
      · rintro ⟨digest, listing, eq⟩
        have key : digest.1 = other := (keys digest).symm.trans (congrArg Prod.fst eq)
        rw [if_neg (key ▸ same)] at eq
        exact eq ▸ listing
      · exact fun listing => ⟨_, listing, if_neg same⟩
  · cases patched

private theorem Kept.patches (kept : Kept program digests dirty)
    (patched : dirty.foldlM (patchDigest program) digests = some after) : Kept program after [] := by
  induction dirty generalizing digests with
  | nil =>
    cases patched
    exact kept
  | cons path dirty ih =>
    rw [foldlM_cons] at patched
    obtain ⟨next, first, later⟩ := Option.bind_eq_some_iff.mp patched
    exact ih (kept.patch listed first) later

end

section

variable {C H D : Type}

structure Tracked (project : Project C H D) : Prop where
  listed : project.generation.program.Listed
  linked : project.graph.Linked
  covers : ∀ dependency importer, project.generation.program.Imports dependency importer →
    project.graph.reverse.Links dependency importer
  digests : ∀ kept ∈ project.sourceDigests, Kept project.generation.program kept.1 kept.2

variable {compiler : Compiler C H D} {base : Base} {project : Project C H D}

private theorem Tracked.current (tracked : Tracked project) :
    Kept project.generation.program project.currentDigests.1 [] ∧
      Tracked project.currentDigests.2 := by
  have kept : Kept project.generation.program project.currentDigests.1 [] := by
    unfold Project.currentDigests
    dsimp only
    split
    · rename_i digests dirty held
      cases patched : dirty.foldlM (patchDigest project.generation.program) digests with
      | none => exact kept_digestsOf tracked.listed
      | some after => exact (tracked.digests _ held).patches tracked.listed patched
    · exact kept_digestsOf tracked.listed
  refine ⟨kept, tracked.listed, tracked.linked, tracked.covers, ?_⟩
  rintro _ ⟨⟩
  exact kept

private theorem openProject_tracked {stopped : Bool} {configSource : Option Text}
    (opened : Project.openProject compiler base stopped configSource = .ok project)
    (listed : project.generation.program.Listed) : Tracked project := by
  simp only [Project.openProject] at opened
  cases built : (compiler.buildProgram base stopped
      (Project.startFs compiler configSource).buildScope.2).1 with
  | error error =>
    rw [built] at opened
    cases opened
  | ok generation =>
    rw [built] at opened
    cases opened
    obtain ⟨linked, links⟩ := rebuild_spec generation.program
    exact ⟨listed, linked, fun dependency importer => (links dependency importer).mpr, nofun⟩

section

variable {candidate : Candidate C H D} {changes : List FileChange}

/-- A file that enters, leaves or changes is edited or, if the update is not cut off, in a program
with an edited file in the global scope, or it imports an edited file, directly or through others. -/
def Program.Traces (before after : Program H D) (edited : List Path) (cutoff : Bool) : Prop :=
  ∀ path text, ¬ (before.Holds path text ↔ after.Holds path text) →
    if cutoff = true then path ∈ edited
    else globalScopeChange edited [before, after] = true ∨ ∃ origin ∈ edited,
      Relation.ReflTransGen (fun dependency importer => before.Imports dependency importer ∨
        after.Imports dependency importer) origin.clean path

variable (compiler base) in
/-- What an update asks of the compiler. A file whose imports stay leaves those of the other files; in
place only that file changes; a chain that is due gives the same files. -/
structure Traced (project : Project C H D) (candidate : Candidate C H D) : Prop where
  listed : candidate.generation.program.Listed
  traces : project.generation.program.Traces candidate.generation.program
    candidate.edit.changedPaths candidate.semanticCutoff
  imports : ∀ path ∈ candidate.replaced,
    project.graph.edgesUnchanged candidate.generation.program path = true →
    ∀ dependency importer, importer ≠ path.clean →
      candidate.generation.program.Imports dependency importer →
        project.generation.program.Imports dependency importer
  inPlace : candidate.generation.kind = .reused → ∀ path ∈ candidate.replaced, ∀ other ≠ path.clean,
    ∀ text, project.generation.program.Holds other text ↔
      candidate.generation.program.Holds other text
  rebase : rebaseAfterUpdates ≤ candidate.generation.updates →
    let fresh := (candidate.fs.state.overlaid
      (compiler.newProgram candidate.generation.config)).run base
    fresh.Listed ∧ ∀ file, file ∈ fresh.sourceFiles ↔
      file ∈ candidate.generation.program.sourceFiles

variable (tracked : Tracked project) (traced : Traced compiler base project candidate)

include tracked traced

private theorem nextGraph_spec : (project.nextGraph candidate).1.Linked ∧
    (∀ dependency importer, candidate.generation.program.Imports dependency importer →
      (project.nextGraph candidate).1.reverse.Links dependency importer) ∧
    ∀ dependency importer, project.generation.program.Imports dependency importer ∨
      candidate.generation.program.Imports dependency importer →
        importer ∈ importersOf (project.nextGraph candidate).2 dependency := by
  unfold Project.nextGraph
  dsimp only
  split
  · rename_i kept
    obtain ⟨path, replaced, unchanged⟩ := Option.any_eq_true _ _ |>.mp kept
    have covers : ∀ dependency importer,
        candidate.generation.program.Imports dependency importer →
          project.graph.reverse.Links dependency importer := by
      intro dependency importer imports
      by_cases same : importer = path.clean
      · subst same
        obtain ⟨file, member, -, name, edge⟩ := imports
        unfold ImportGraph.edgesUnchanged at unchanged
        split at unchanged
        · cases unchanged
        · rename_i edited found
          obtain ⟨listing, named⟩ := traced.listed.found _ _ found
          rw [Path.clean_clean] at named
          obtain rfl := inj_on_of_nodup_map traced.listed.distinct member listing
            (name.trans named.symm)
          rw [Bool.and_eq_true, decide_eq_true_eq] at unchanged
          exact tracked.linked _ _ (unchanged.2 ▸ edge)
      · exact tracked.covers _ _ (traced.imports path replaced unchanged _ _ same imports)
    refine ⟨tracked.linked, covers, fun dependency importer imports => ?_⟩
    have links := imports.elim (tracked.covers dependency importer) (covers dependency importer)
    exact mem_flatMap.mpr ⟨_, mem_cons_self, links⟩
  · obtain ⟨linked, links⟩ := rebuild_spec candidate.generation.program
    refine ⟨linked, fun dependency importer => (links dependency importer).mpr,
      fun dependency importer imports => ?_⟩
    rcases imports with before | after
    · exact mem_flatMap.mpr ⟨_, mem_cons_self, tracked.covers dependency importer before⟩
    · exact mem_flatMap.mpr ⟨_, mem_cons_of_mem _ mem_cons_self,
        (links dependency importer).mpr after⟩

private theorem commit_tracked : Tracked (project.commit candidate) := by
  obtain ⟨linked, covers, -⟩ := nextGraph_spec tracked traced
  refine ⟨traced.listed, linked, covers, fun kept held => ?_⟩
  unfold Project.commit at held ⊢
  dsimp only at held ⊢
  split at held
  · rename_i path inPlace replaced
    obtain ⟨⟨digests, dirty⟩, before, rfl⟩ := Option.map_eq_some_iff.mp held
    obtain ⟨ordered, rows⟩ := tracked.digests _ before
    refine ⟨ordered, fun other clean text => ?_⟩
    have apart : other ∉ dirty ∧ other ≠ path.clean := by
      dsimp only at clean
      split at clean
      · rename_i already
        exact ⟨clean, fun same => clean (same ▸ already)⟩
      · simpa using clean
    rw [rows other apart.1 text]
    exact traced.inPlace (of_decide_eq_true inPlace) path replaced other apart.2 text
  · cases held

private theorem rebase_tracked (finished : candidate.fs.lookups = none) :
    let after := ((project.commit candidate).rebaseIfDue compiler base).2
    Tracked after ∧ ∀ file, file ∈ after.generation.program.sourceFiles ↔
      file ∈ candidate.generation.program.sourceFiles := by
  have committed := commit_tracked tracked traced
  unfold Project.rebaseIfDue
  split
  · exact ⟨committed, fun _ => Iff.rfl⟩
  · rename_i due
    obtain ⟨after, performed, -⟩ := OverlayFs.scoped_spec base
      (compiler.freshChain (project.commit candidate).generation) (project.commit candidate).fs.state
    have unfinished : (project.commit candidate).fs.lookups = none := finished
    unfold OverlayFs.buildScope
    rw [unfinished]
    simp only [performed]
    have program : (((project.commit candidate).fs.state.overlaid
        (compiler.freshChain (project.commit candidate).generation)).run base).program =
        (candidate.fs.state.overlaid (compiler.newProgram candidate.generation.config)).run base := by
      unfold Compiler.freshChain Compiler.build
      rw [run_overlaid_bind]
      rfl
    obtain ⟨listed, same⟩ := traced.rebase (Nat.le_of_not_lt due)
    refine ⟨⟨?_, committed.linked, fun dependency importer imports => ?_, nofun⟩, ?_⟩
    · rwa [program]
    · rw [program] at imports
      obtain ⟨file, member, rest⟩ := imports
      exact committed.covers dependency importer ⟨file, (same file).mp member, rest⟩
    · rwa [program]

end

private theorem update_cases (compiler : Compiler C H D) (base : Base) (stopped : ℕ → Bool)
    (changes : List FileChange) (project : Project C H D) :
    (Project.update compiler base stopped changes project).2 = project ∨
      ∃ candidate, project.prepare compiler base stopped changes = .ok (some candidate) ∧
        Project.update compiler base stopped changes project =
          (.ok (project.accept compiler base candidate).1,
            (project.accept compiler base candidate).2) := by
  unfold Project.update
  cases prepared : project.prepare compiler base stopped changes with
  | error error => exact .inl rfl
  | ok found =>
    cases found with
    | none => exact .inl rfl
    | some candidate => exact .inr ⟨candidate, rfl, rfl⟩

private theorem update_tracked (tracked : Tracked project) {stopped : ℕ → Bool} {changes : List FileChange}
    (traced : ∀ candidate, project.prepare compiler base stopped changes = .ok (some candidate) →
      Traced compiler base project candidate) :
    Tracked (Project.update compiler base stopped changes project).2 := by
  rcases update_cases compiler base stopped changes project with same | ⟨candidate, prepared, made⟩
  · rwa [same]
  · rw [made]
    exact (rebase_tracked tracked (traced candidate prepared)
      (candidate_spec (prepare_some prepared)).1).1

end

/-- The passes that answer demands from a program; `tracks` tells whether they follow versions. -/
structure Answering (ω K F A H D : Type) where
  runs : Program H D → List (Path × List (EntityDemand K)) → List Location →
    Act ω String (List (RunAnswer F) × List (Path × A))
  tracks : ω → Bool
  version : ω → Path → Option ℕ
  discard : ω → ω

/-- A project with its passes, and how often it was asked whether a request is cancelled. -/
structure Serving (ω C H D : Type) where
  project : Project C H D
  passes : ω
  checks : ℕ

variable {ω C H D K F A X : Type}

def servingBackend (compiler : Compiler C H D) (base : Base) (stopped : ℕ → Bool)
    (answering : Answering ω K F A H D) : Backend (Serving ω C H D) H K F A where
  cancelled serving := (stopped serving.checks, { serving with checks := serving.checks + 1 })
  sourceDigests serving :=
    if stopped serving.checks then
      (.error "context canceled", { serving with checks := serving.checks + 1 })
    else
      let (digests, project) := serving.project.currentDigests
      (.ok digests, { serving with project, checks := serving.checks + 1 })
  update changes serving :=
    let (outcome, project) := Project.update compiler base
      (fun number => stopped (serving.checks + number)) changes serving.project
    (outcome, { serving with project, checks := serving.checks + 4 })
  discardDerivedState serving := { serving with passes := answering.discard serving.passes }
  perFileDemandRuns runs locations serving :=
    let (outcome, passes) := answering.runs serving.project.generation.program runs locations
      serving.passes
    (outcome, { serving with passes })
  tracksContentVersions serving := answering.tracks serving.passes
  contentVersion serving := answering.version serving.passes

def Serving.digests (serving : Serving ω C H D) : List (Path × H) := serving.project.currentDigests.1

section

variable (compiler : Compiler C H D) (base : Base) (stopped : ℕ → Bool)
  (answering : Answering ω K F A H D)

private theorem servingBackend_reads :
    (servingBackend compiler base stopped answering).Reads Serving.digests := by
  refine ⟨fun _ => rfl, fun _ => rfl, fun serving => ?_, fun serving sources returned => ?_,
    fun _ _ _ => rfl, fun changes serving error failed => ?_⟩
  · unfold servingBackend
    dsimp only
    split <;> rfl
  · unfold servingBackend at returned
    dsimp only at returned
    split at returned
    · exact nomatch returned
    · exact (Except.ok.inj returned).symm
  · have same : (Project.update compiler base (fun number => stopped (serving.checks + number))
        changes serving.project).2 = serving.project := by
      rcases update_cases compiler base (fun number => stopped (serving.checks + number)) changes
        serving.project with same | ⟨candidate, -, accepted⟩
      · exact same
      · exact nomatch (congrArg Prod.fst accepted).symm.trans failed
    exact congrArg (fun project => project.currentDigests.1) same

/-- How an update finds a path: without a walk only the changed ones; in the global scope every file;
else what reaches a changed file along imports. -/
def Follows (project : Project C H D) (candidate : Candidate C H D) (path : Path) : Prop :=
  let changed := candidate.edit.changedPaths
  let programs := [project.generation.program, candidate.generation.program]
  if candidate.semanticCutoff then path ∈ changed
  else if globalScopeChange changed programs then
    ∃ program ∈ programs, ∃ file ∈ program.sourceFiles, file.fileName.clean = path
  else ∃ origin ∈ changed, Reaches (importersOf (project.nextGraph candidate).2) origin.clean path

private theorem mem_affected_iff (project : Project C H D) (candidate : Candidate C H D) (path : Path) :
    path ∈ project.affected candidate ↔ Follows project candidate path := by
  unfold Project.affected Follows
  dsimp only
  split
  · exact mem_toFinset
  · split
    · unfold everySourcePath
      simp only [mem_toFinset, mem_flatMap, mem_map]
    · exact mem_affected _ _ path

private theorem follows_of_moved {project : Project C H D} {candidate : Candidate C H D}
    (tracked : Tracked project) (traced : Traced compiler base project candidate) {path : Path}
    {text : H} (moved : ¬ (project.generation.program.Holds path text ↔
      candidate.generation.program.Holds path text)) : Follows project candidate path := by
  have named := traced.traces path text moved
  unfold Follows
  dsimp only
  split
  · rename_i cutoff
    rwa [if_pos cutoff] at named
  · rename_i walked
    rw [if_neg walked] at named
    split
    · have one : project.generation.program.Holds path text ∨
          candidate.generation.program.Holds path text := by tauto
      rcases one with ⟨file, member, -, name, -⟩ | ⟨file, member, -, name, -⟩
      · exact ⟨_, mem_cons_self, file, member, name⟩
      · exact ⟨_, mem_cons_of_mem _ mem_cons_self, file, member, name⟩
    · rename_i modules
      obtain ⟨origin, edited, chain⟩ := named.resolve_left modules
      refine ⟨origin, edited, Relation.ReflTransGen.mono (fun dependency importer imports => ?_) _ _
        chain⟩
      exact (nextGraph_spec tracked traced).2.2 dependency importer imports

private theorem update_follows {changes : List FileChange} {serving : Serving ω C H D}
    (tracked : Tracked serving.project) (traced : ∀ candidate, serving.project.prepare compiler base
      (fun number => stopped (serving.checks + number)) changes = .ok (some candidate) →
        Traced compiler base serving.project candidate) :
    DemandClosure.UpdateFollows (servingBackend compiler base stopped answering) Serving.digests
      changes serving := by
  intro outcome returned path differ
  let stops := fun number => stopped (serving.checks + number)
  replace returned : (Project.update compiler base stops changes serving.project).1 = .ok outcome :=
    returned
  replace differ : rowAt (Project.update compiler base stops changes
    serving.project).2.currentDigests.1 path ≠ rowAt serving.project.currentDigests.1 path := differ
  rcases update_cases compiler base stops changes serving.project with
    same | ⟨candidate, prepared, accepted⟩
  · rw [same] at differ
    exact absurd rfl differ
  · rw [accepted] at returned differ
    cases returned
    have here := traced candidate prepared
    obtain ⟨after, files⟩ := rebase_tracked tracked here (candidate_spec (prepare_some prepared)).1
    obtain ⟨⟨ordered, rows⟩, -⟩ := tracked.current
    obtain ⟨⟨ordered', rows'⟩, -⟩ := after.current
    have moved : ∃ text, ¬ (serving.project.generation.program.Holds path text ↔
        candidate.generation.program.Holds path text) := by
      by_contra none
      rw [not_exists_not] at none
      refine differ (Option.ext fun text => ?_)
      refine (rowAt_eq_some_iff ordered' text).trans (.trans ?_ (rowAt_eq_some_iff ordered text).symm)
      rw [rows' path not_mem_nil, rows path not_mem_nil, none text]
      exact exists_congr fun file => and_congr_left fun _ => files file
    obtain ⟨text, moved⟩ := moved
    unfold DemandClosure.updateNames
    rw [mem_toFinset, mem_append]
    exact .inl ((Finset.mem_sort _).mpr ((mem_affected_iff _ _ path).mpr
      (follows_of_moved compiler base tracked here moved)))

private theorem servingBackend_keeps : (servingBackend compiler base stopped answering).Keeps
    fun serving => Tracked serving.project := by
  refine ⟨fun _ held => held, fun _ held => held, fun serving held => ?_, fun _ _ _ held => held⟩
  unfold servingBackend
  dsimp only
  split
  · exact held
  · exact held.current.2

/-- What a call keeps: an update asks of the compiler what its programs are traced by; a demand notes
the paths that are not demanded any more, and is answered facts in demanded paths. -/
def CallKeeps (codec : Codec K X) (closure : DemandClosure (Serving ω C H D) H F A)
    (demanded : List Path) : Call K X → Prop
  | .update changes => ∀ candidate, closure.backend.project.prepare compiler base
      (fun number => stopped (closure.backend.checks + number)) changes = .ok (some candidate) →
        Traced compiler base closure.backend.project candidate
  | call => DemandClosure.CallFollows (servingBackend compiler base stopped answering)
      Serving.digests codec closure demanded call

private theorem callKeeps_follows [DecidableEq H] (codec : Codec K X) (cells : EntityCells F)
    (closure : DemandClosure (Serving ω C H D) H F A) (demanded : List Path) (call : Call K X)
    (tracked : Tracked closure.backend.project)
    (keeps : CallKeeps compiler base stopped answering codec closure demanded call) :
    DemandClosure.CallFollows (servingBackend compiler base stopped answering) Serving.digests codec
        closure demanded call ∧ Tracked (closure.call
      (servingBackend compiler base stopped answering) codec cells call).2.backend.project := by
  refine ⟨?_, DemandClosure.call_keeps (servingBackend_keeps compiler base stopped answering) codec
    cells tracked call ?_⟩
  · cases call with
    | update changes => exact update_follows compiler base stopped answering tracked keeps
    | demand generation groups changedPaths => exact keeps
    | release => exact trivial
    | reset => exact trivial
  · rintro changes rfl
    exact update_tracked tracked keeps

/-- In a history of an opened project whose calls keep to that, a manifest without versions names a
table that was built and every path at which the new one differs from it. -/
theorem fallback_manifest_names_changes [DecidableEq H] (codec : Codec K X) (cells : EntityCells F)
    (serving : Serving ω C H D) {cancelled : Bool} {configSource : Option Text}
    (opened : Project.openProject compiler base cancelled configSource = .ok serving.project)
    (listed : serving.project.generation.program.Listed) (calls : List (Call K X))
    (clean : ∀ call ∈ calls, call.Clean)
    (keeps : DemandClosure.HistoryAll (servingBackend compiler base stopped answering) codec cells
      (CallKeeps compiler base stopped answering codec) calls (DemandClosure.new serving) []) :
    let tables := DemandClosure.history (servingBackend compiler base stopped answering) codec cells
      calls (DemandClosure.new serving)
    ∀ one ∈ tables, one.versioned = false → ∀ manifest, one.table.transport = some manifest →
      (∃ base ∈ tables, manifest.Names base.table) ∧
      ∀ base ∈ tables, manifest.Names base.table → manifest.Covers base.table one.table :=
  DemandClosure.fallback_covers (servingBackend_reads compiler base stopped answering) codec
    cells serving calls clean (keeps.imp
      (callKeeps_follows compiler base stopped answering codec cells)
      (openProject_tracked opened listed))

end

namespace Entering

variable (declares : Bool)

def root (text : Option Text) : SourceFile ℕ :=
  ⟨['/', 'a'], declares, true, false, if text = some [1] then [some ['/', 'b']] else [],
    (text.getD []).length⟩

def imported : SourceFile ℕ := ⟨['/', 'b'], false, true, false, [], 0⟩

def program (text : Option Text) : Program ℕ Unit :=
  let files := root declares text :: if text = some [1] then [imported] else []
  ⟨files, fun path => files.find? fun file => decide (file.fileName = path), fun _ => none,
    fun _ => true⟩

def compiler : Compiler Unit ℕ Unit where
  configPath := ['/', 't']
  absolute path := .ok path.clean
  lossy := id
  parseConfig := .done (.ok ())
  newProgram _ := .ask (.reads ['/', 'a']) fun (text : Option Text) => .done (program declares text)
  reuseProgram _ _ := .done none
  preserveExportIdentities _ _ := false

def disk (text : Option Text) : Base
  | .files _ => false
  | .directories _ => false
  | .stats _ => none
  | .realpaths path => path
  | .entries _ => ⟨[], [], none⟩
  | .reads path => if path = ['/', 'a'] then text else none

def answering : Answering Unit Unit Unit Unit ℕ Unit where
  runs _ runs _ passes := (.ok (runs.map fun _ => .rows [], [(['/', 'b'], ())]), passes)
  tracks _ := false
  version _ _ := none
  discard := id

def codec : Codec Unit Unit := ⟨fun _ => .ok (), fun _ _ => .ok [], fun _ _ => .ok []⟩

def cells : EntityCells Unit := ⟨(), fun _ _ => ()⟩

def opened (text : Option Text) : Project Unit ℕ Unit :=
  ⟨OverlayFs.new, ⟨(), program declares text, 0, .rebuilt⟩, {.reads ['/', 'a']}, ∅, 0,
    ImportGraph.rebuild (program declares text), ∅, none⟩

def backend (text : Option Text) :
    Backend (Serving Unit Unit ℕ Unit) ℕ Unit Unit Unit :=
  servingBackend (compiler declares) (disk text) (fun _ => false) answering

def tables (text : Option Text) (calls : List (Call Unit Unit)) :
    List (Built ℕ Unit Unit) :=
  DemandClosure.history (backend declares text) codec cells calls
    (DemandClosure.new ⟨opened declares text, (), 0⟩)

def edited (text : List UInt8) : List (Call Unit Unit) :=
  [.demand 1 [] [], .update [⟨['/', 'a'], text, false, 1⟩], .demand 2 [] []]

def demanded : List (Call Unit Unit) :=
  [.demand 1 [] [],
    .demand 1 [⟨['/', 'a'], .plain [⟨⟨['/', 'a'], 0, 1⟩, none, true, ()⟩]⟩] [['/', 'a']]]

private theorem program_listed (text : Option Text) : (program declares text).Listed := by
  refine ⟨?_, fun path file found => ?_⟩
  · by_cases imports : text = some [1]
    · rw [imports]
      cases declares <;> decide +kernel
    · simp [program, imports]
  · replace found : (program declares text).sourceFiles.find?
        (fun file => decide (file.fileName = path)) = some file := found
    have name := find?_some found
    exact ⟨mem_of_find?_eq_some found, congrArg Path.clean (of_decide_eq_true name)⟩

private theorem backend_keeps (text : Option Text) : (backend declares text).Keeps
    fun serving => ∃ digests, serving.project =
      { opened declares text with sourceDigests := digests } := by
  refine ⟨fun _ held => held, fun _ held => held, fun serving ⟨digests, held⟩ => ?_,
    fun _ _ _ held => held⟩
  refine ⟨some (serving.project.currentDigests.1, []), ?_⟩
  change serving.project.currentDigests.2 = _
  rw [held]
  rfl

end Entering

open Entering in
/-- An edit of `/a` that imports nothing moves its digest alone. -/
theorem fallback_manifest_names_changes_edited :
    Project.openProject (compiler false) (disk none) false none = .ok (opened false none) ∧
    (∃ one ∈ tables false none (edited [2]), one.versioned = false ∧
      ∃ manifest ∈ one.table.transport, ∃ base ∈ tables false none (edited [2]),
        manifest.Names base.table ∧ one.table.rows ['/', 'a'] ≠ base.table.rows ['/', 'a']) ∧
    ∀ one ∈ tables false none (edited [2]), one.versioned = false →
      ∀ manifest, one.table.transport = some manifest →
        (∃ base ∈ tables false none (edited [2]), manifest.Names base.table) ∧
        ∀ base ∈ tables false none (edited [2]), manifest.Names base.table →
          manifest.Covers base.table one.table := by
  have noRuns : ∀ runs locations, DemandClosure.prepareRuns codec
      (Grouping.sortByKey DemandGroup.path []) = .ok (runs, locations) → runs = [] := by
    intro runs locations prepared
    have paths := Producer.prepareRuns_paths prepared
    rw [perm_nil.mp (Grouping.sortByKey_perm DemandGroup.path [])] at paths
    exact map_eq_nil_iff.mp paths
  have opening : Project.openProject (compiler false) (disk none) false none =
      .ok (opened false none) := rfl
  refine ⟨opening, by decide +kernel, fallback_manifest_names_changes (compiler false) (disk none)
    (fun _ => false) answering codec cells ⟨opened false none, (), 0⟩ opening
    (program_listed false none) (edited [2]) ?_ ⟨⟨nofun, ?_⟩, ?_, ⟨by decide +kernel, ?_⟩, trivial⟩⟩
  · intro call member
    rcases mem_cons.mp member with rfl | member
    · exact nofun
    rcases mem_cons.mp member with rfl | member
    · trivial
    obtain rfl := mem_singleton.mp member
    exact nofun
  · exact fun _ runs locations prepared some => absurd (noRuns runs locations prepared) some
  · intro candidate prepared
    have begun : ∃ digests, (DemandClosure.new ⟨opened false none, (), 0⟩ :
        DemandClosure (Serving Unit Unit ℕ Unit) ℕ Unit Unit).backend.project =
        { opened false none with sourceDigests := digests } := ⟨none, rfl⟩
    obtain ⟨digests, kept⟩ := DemandClosure.call_keeps (backend_keeps false none) codec cells
      begun (.demand 1 [] []) nofun
    unfold backend at kept
    rw [kept] at prepared ⊢
    cases prepared
    have name : ∀ text : Option Text, text ≠ some [1] → ∀ path digest,
        (program false text).Holds path digest → path = ['/', 'a'] := by
      rintro text other path digest ⟨file, member, -, rfl, -⟩
      have alone : (program false text).sourceFiles = [root false text] := by simp [program, other]
      rw [alone] at member
      rw [mem_singleton.mp member]
      rfl
    refine ⟨program_listed false (some [2]), fun path digest moved => ?_,
      fun path _ _ dependency importer _ imports => ?_, nofun,
      fun (due : rebaseAfterUpdates ≤ 0) => absurd due (by decide)⟩
    · change path ∈ [['/', 'a']]
      rw [mem_singleton]
      by_contra other
      exact moved ⟨fun held => absurd (name none nofun path digest held) other,
        fun held => absurd (name (some [2]) (by decide) path digest held) other⟩
    · obtain ⟨file, member, -, -, edge⟩ := imports
      rw [show file = root false (some [2]) from mem_singleton.mp member] at edge
      exact nomatch edge
  · exact fun _ runs locations prepared some => absurd (noRuns runs locations prepared) some

open Entering in
/-- The file `/b` enters the program, or gets a fact, and the manifest does not name it. -/
theorem fallback_manifest_misses_entered :
    Project.openProject (compiler true) (disk none) false none = .ok (opened true none) ∧
    Project.openProject (compiler true) (disk (some [1])) false none =
      .ok (opened true (some [1])) ∧
    (∃ one ∈ tables true none (edited [1]), one.versioned = false ∧
      ∃ manifest ∈ one.table.transport, ∃ base ∈ tables true none (edited [1]),
        manifest.Names base.table ∧ one.table.rows ['/', 'b'] ≠ base.table.rows ['/', 'b'] ∧
        ['/', 'b'] ∉ manifest.sourcePaths) ∧
    ∃ one ∈ tables true (some [1]) demanded, one.versioned = false ∧
      ∃ manifest ∈ one.table.transport, ∃ base ∈ tables true (some [1]) demanded,
        manifest.Names base.table ∧ one.table.rows ['/', 'b'] ≠ base.table.rows ['/', 'b'] ∧
        ['/', 'b'] ∉ manifest.filePaths :=
  ⟨rfl, rfl, by decide +kernel, by decide +kernel⟩

end SolidChecker.Building
