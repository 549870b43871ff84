/- source: apps/solid-typefacts/src/project.rs, unsafe_boundary.rs -/

import SolidChecker.Building.ImportGraph
import SolidChecker.Building.OverlayFs
import SolidChecker.Producer.Closure

namespace SolidChecker.Building

open Foundation
open Producer (Path FileChange UpdateOutcome)

/-- The compiler, as two phases that ask a file system: a configuration `C` is parsed, then a
program is built from it. A program may be replaced in one file, if the compiler can. -/
structure Compiler (C H D : Type) where
  configPath : Path
  absolute : Path → Except String Path
  lossy : List UInt8 → Text
  parseConfig : Asks (Except String C)
  newProgram : C → Asks (Program H D)
  reuseProgram : Program H D → Path → Asks (Option (Program H D))
  preserveExportIdentities : D → D → Bool

inductive UpdateKind
  | reused
  | rebuilt
  deriving DecidableEq

structure Generation (C H D : Type) where
  config : C
  program : Program H D
  updates : ℕ
  kind : UpdateKind

variable {C H D : Type}

namespace Compiler

variable (compiler : Compiler C H D)

def build (config : C) : Asks (Generation C H D) := do
  let program ← compiler.newProgram config
  pure ⟨config, program, 0, .rebuilt⟩

def freshChain (generation : Generation C H D) : Asks (Generation C H D) :=
  compiler.build generation.config

def prepareUpdate (generation : Generation C H D) (changedPath : Path) :
    Asks (Generation C H D) := do
  match ← compiler.reuseProgram generation.program changedPath with
  | some program => pure ⟨generation.config, program, generation.updates + 1, .reused⟩
  | none => compiler.freshChain generation

def buildFromScratch : Asks (Except String (Generation C H D)) := do
  match ← compiler.parseConfig with
  | .error error => pure (.error error)
  | .ok config => do
      let generation ← compiler.build config
      pure (.ok generation)

def buildProgram (base : Base) (stopped : Bool) (fs : OverlayFs) :
    Except String (Generation C H D) × OverlayFs :=
  if stopped then (.error "context canceled", fs)
  else
    let (owner, fs) := fs.buildScope
    let (built, fs) := fs.perform base compiler.buildFromScratch
    (built, (fs.finishWithQueries owner).2)

end Compiler

structure Project (C H D : Type) where
  fs : OverlayFs
  generation : Generation C H D
  buildQueries : BuildQueries
  versions : Finmap fun _ : Path => ℕ
  updateCount : ℕ
  graph : ImportGraph
  declarationShapes : Finmap fun _ : Path => D
  sourceDigests : Option (List (Path × H) × List Path)

def rebaseAfterUpdates : ℕ := 1024

def check (stopped : Bool) : Except String PUnit :=
  if stopped then .error "context canceled" else .ok ⟨⟩

structure Edit where
  fs : OverlayFs
  versions : Finmap fun _ : Path => ℕ
  changedPaths : List Path
  incrementalPath : Option Path
  incremental : Bool

namespace Edit

def apply (compiler : Compiler C H D) (edit : Edit) (change : FileChange) : Except String Edit := do
  let path ← (compiler.absolute change.path).mapError ("resolve changed path: " ++ ·)
  if (edit.versions.lookup path).any fun version => decide (change.version ≤ version) then pure edit
  else
    let single := edit.incrementalPath.isNone && !change.deleted &&
      decide (path ≠ compiler.configPath)
    pure {
      fs := { edit.fs with state := if change.deleted then edit.fs.state.delete path
        else edit.fs.state.set path (compiler.lossy change.source) }
      versions := edit.versions.insert path change.version
      changedPaths := edit.changedPaths ++ [path]
      incrementalPath := if single then some path else edit.incrementalPath
      incremental := edit.incremental && single }

def replaced (edit : Edit) (program : Program H D) : Option Path :=
  if edit.incremental then
    edit.incrementalPath.filter fun path => (program.getSourceFile path).isSome
  else none

end Edit

structure Candidate (C H D : Type) where
  edit : Edit
  fs : OverlayFs
  replaced : Option Path
  generation : Generation C H D
  queries : BuildQueries
  newShape : Option D
  semanticCutoff : Bool

namespace Project

variable (compiler : Compiler C H D) (base : Base)

def startFs (configSource : Option Text) : OverlayFs :=
  match configSource with
  | some source => ⟨State.empty.set compiler.configPath source, none⟩
  | none => OverlayFs.new

def openProject (stopped : Bool) (configSource : Option Text) : Except String (Project C H D) :=
  let (owner, fs) := (startFs compiler configSource).buildScope
  let (built, fs) := compiler.buildProgram base stopped fs
  let (queries, fs) := fs.finishWithQueries owner
  built.map fun generation =>
    ⟨fs, generation, queries, ∅, 0, ImportGraph.rebuild generation.program, ∅, none⟩

variable (project : Project C H D)

def startEdit : Edit :=
  ⟨project.fs.duplicate, project.versions, [], none, true⟩

def noImporters (path : Path) : Bool :=
  decide ((project.graph.reverse.lookup path).getD [] = [])

def oldShape (path : Path) : Option D :=
  if project.noImporters path then none
  else match project.declarationShapes.lookup path with
    | some shape => some shape
    | none => project.generation.program.declarationShape path

def candidateProgram (stopped : Bool) (edit : Edit) :
    Except String (Generation C H D) × BuildQueries × OverlayFs :=
  let (owner, fs) := edit.fs.buildScope
  match edit.replaced project.generation.program with
  | some path =>
    if stopped then (.error "context canceled", ∅, fs)
    else
      let (generation, fs) := fs.perform base (compiler.prepareUpdate project.generation path)
      (.ok generation, fs.finishWithQueries owner)
  | none =>
    let (built, fs) := compiler.buildProgram base stopped fs
    (built, fs.finishWithQueries owner)

def leafCutoff (candidate : Program H D) (path : Path) : Bool :=
  project.noImporters path && (candidate.getSourceFile path).any fun file =>
    file.isExternalModule && !file.hasGlobalOrModuleAugmentation && candidate.exportedSymbols file

/-- The replaced file's new contract, if there was one, and whether it is the old one. -/
def shapeCutoff (candidate : Program H D) (path : Path) : Option D × Bool :=
  match project.oldShape path, candidate.declarationShape path with
  | some old, some shape => (some shape, compiler.preserveExportIdentities old shape)
  | _, _ => (none, false)

/-- Everything of an update that can fail; `stopped` tells each check whether the request is
cancelled. -/
def prepare (stopped : ℕ → Bool) (changes : List FileChange) (project : Project C H D) :
    Except String (Option (Candidate C H D)) := do
  check (stopped 0)
  let edit ← changes.foldlM (Edit.apply compiler) project.startEdit
  if edit.changedPaths = [] then pure none
  else
    let replaced := edit.replaced project.generation.program
    check (stopped 1 && replaced.any fun path => !project.noImporters path)
    let (built, queries, fs) := project.candidateProgram compiler base (stopped 2) edit
    let generation ← built
    let (newShape, preserved) := match replaced with
      | some path => project.shapeCutoff compiler generation.program path
      | none => (none, false)
    check (stopped 3 && replaced.any fun path => (project.oldShape path).isSome)
    let leaf := replaced.any fun path => project.leafCutoff generation.program path
    pure (some ⟨edit, fs, replaced, generation, queries, newShape, leaf || preserved⟩)

variable (candidate : Candidate C H D)

def nextGraph : ImportGraph × List Reverse :=
  let program := candidate.generation.program
  if candidate.replaced.any fun path => project.graph.edgesUnchanged program path then
    (project.graph, [project.graph.reverse])
  else
    let rebuilt := ImportGraph.rebuild program
    (rebuilt, [project.graph.reverse, rebuilt.reverse])

def affected : Finset Path :=
  let changed := candidate.edit.changedPaths
  let programs := [project.generation.program, candidate.generation.program]
  if candidate.semanticCutoff then changed.toFinset
  else if globalScopeChange changed programs then everySourcePath programs
  else affectedFromReverseDeps changed (project.nextGraph candidate).2

/-- After enough updates the chain is replaced by a fresh build of the same content. -/
def rebaseIfDue : Bool × Project C H D :=
  if project.generation.updates < rebaseAfterUpdates then (false, project)
  else
    let (owner, fs) := project.fs.buildScope
    let (fresh, fs) := fs.perform base (compiler.freshChain project.generation)
    let (queries, fs) := fs.finishWithQueries owner
    (true, { project with fs, generation := fresh, buildQueries := queries, sourceDigests := none })

def commit : Project C H D :=
  let reused := decide (candidate.generation.kind = .reused)
  let affected := project.affected candidate
  { fs := candidate.fs
    generation := candidate.generation
    buildQueries := if reused then project.buildQueries ∪ candidate.queries else candidate.queries
    versions := candidate.edit.versions
    updateCount := project.updateCount + 1
    graph := (project.nextGraph candidate).1
    declarationShapes := match candidate.replaced with
      | some path =>
        let kept := affected.sort (· ≤ ·) |>.foldl (fun shapes path => shapes.erase path.clean)
          project.declarationShapes
        match candidate.newShape with
        | some shape => kept.insert path shape
        | none => kept
      | none => ∅
    sourceDigests := match reused, candidate.replaced with
      | true, some path => project.sourceDigests.map fun (digests, dirty) =>
        (digests, if path.clean ∈ dirty then dirty else dirty ++ [path.clean])
      | _, _ => none }

def accept : UpdateOutcome × Project C H D :=
  let affected := project.affected candidate
  let reused := decide (candidate.generation.kind = .reused)
  let askedAnew := decide (¬candidate.queries ⊆ project.buildQueries)
  let (rebased, after) := (project.commit candidate).rebaseIfDue compiler base
  (⟨affected.sort (· ≤ ·), reused && !rebased && !askedAnew⟩, after)

def update (stopped : ℕ → Bool) (changes : List FileChange) :
    Act (Project C H D) String UpdateOutcome := fun project =>
  match project.prepare compiler base stopped changes with
  | .error error => (.error error, project)
  | .ok none => (.ok ⟨[], false⟩, project)
  | .ok (some candidate) =>
    let (outcome, after) := project.accept compiler base candidate
    (.ok outcome, after)

end Project

def digestsOf (program : Program H D) : List (Path × H) :=
  Grouping.sortByKey Prod.fst ((program.sourceFiles.filter fun file => !file.isDeclarationFile).map
    fun file => (file.fileName.clean, file.text))

def patchDigest (program : Program H D) (digests : List (Path × H)) (path : Path) :
    Option (List (Path × H)) :=
  let file := (program.getSourceFile path).filter fun file =>
    !file.isDeclarationFile && decide (file.fileName.clean = path)
  file.bind fun file =>
    if path ∈ digests.map Prod.fst then
      some (digests.map fun digest => if digest.1 = path then (path, file.text) else digest)
    else none

namespace Project

/-- Kept while the chain replaces single files: only their digests are computed again. -/
def currentDigests (project : Project C H D) : List (Path × H) × Project C H D :=
  let program := project.generation.program
  let digests := match project.sourceDigests with
    | some (digests, dirty) =>
      (dirty.foldlM (patchDigest program) digests).getD (digestsOf program)
    | none => digestsOf program
  (digests, { project with sourceDigests := some (digests, []) })

end Project

section

variable {compiler : Compiler C H D} {base : Base} {project : Project C H D}

private theorem bind_ok {α β : Type} {first : Except String α} {next : α → Except String β}
    {value : β} (both : first >>= next = .ok value) : ∃ middle, first = .ok middle ∧
      next middle = .ok value := by
  cases first with
  | error error => exact nomatch both
  | ok middle => exact ⟨middle, rfl, both⟩

variable {edit after : Edit}

private theorem Edit.apply_lookups {change : FileChange}
    (applied : edit.apply compiler change = .ok after) : after.fs.lookups = edit.fs.lookups := by
  obtain ⟨path, -, applied⟩ := bind_ok applied
  split at applied <;> cases applied <;> rfl

variable {changes : List FileChange}

theorem Edit.applyAll_lookups (applied : changes.foldlM (Edit.apply compiler) edit = .ok after) :
    after.fs.lookups = edit.fs.lookups := by
  induction changes generalizing edit with
  | nil =>
    cases applied
    rfl
  | cons change changes ih =>
    rw [List.foldlM_cons] at applied
    obtain ⟨next, first, later⟩ := bind_ok applied
    exact (ih later).trans (apply_lookups first)

private theorem Project.candidateProgram_ok {stopped : Bool} {edit : Edit} {generation : Generation C H D}
    {rest : BuildQueries × OverlayFs}
    (built : project.candidateProgram compiler base stopped edit = (.ok generation, rest)) :
    stopped = false := by
  cases stopped with
  | false => rfl
  | true =>
    unfold candidateProgram Compiler.buildProgram at built
    dsimp only at built
    split at built <;> exact nomatch congrArg Prod.fst built

structure Prepared (compiler : Compiler C H D) (base : Base) (changes : List FileChange)
    (project : Project C H D) (candidate : Candidate C H D) : Prop where
  applied : changes.foldlM (Edit.apply compiler) project.startEdit = .ok candidate.edit
  changed : candidate.edit.changedPaths ≠ []
  replaced : candidate.replaced = candidate.edit.replaced project.generation.program
  built : project.candidateProgram compiler base false candidate.edit =
    (.ok candidate.generation, candidate.queries, candidate.fs)

theorem prepare_some {stopped : ℕ → Bool} {candidate : Candidate C H D}
    (prepared : project.prepare compiler base stopped changes = .ok (some candidate)) :
    Prepared compiler base changes project candidate := by
  obtain ⟨-, -, prepared⟩ := bind_ok prepared
  obtain ⟨edit, applied, prepared⟩ := bind_ok prepared
  split at prepared
  · exact nomatch Except.ok.inj prepared
  · rename_i changed
    obtain ⟨-, -, prepared⟩ := bind_ok prepared
    obtain ⟨generation, built, prepared⟩ := bind_ok prepared
    obtain ⟨-, -, prepared⟩ := bind_ok prepared
    cases prepared
    have whole : project.candidateProgram compiler base (stopped 2) edit =
        (.ok generation, (project.candidateProgram compiler base (stopped 2) edit).2) :=
      Prod.ext built rfl
    have running := Project.candidateProgram_ok whole
    refine ⟨applied, changed, rfl, ?_⟩
    change project.candidateProgram compiler base false edit =
      (.ok generation, (project.candidateProgram compiler base (stopped 2) edit).2)
    rw [running] at whole ⊢
    exact whole

end

end SolidChecker.Building
