/- source: apps/solid-typefacts/src/per_file.rs, passes.rs, source_facts.rs, project.rs -/

import SolidChecker.Foundation.Stamps
import SolidChecker.Producer.Closure

namespace SolidChecker.Producer

open Foundation

structure AsyncFunctionFact (X : Type) where
  expression : Location
  symbol : SymbolId
  target : SymbolId
  body : X
  deriving DecidableEq

variable {ω H K V W F X : Type}

def AsyncFunctionFact.key (fact : AsyncFunctionFact X) : Path ×ₗ ℕ ×ₗ ℕ ×ₗ SymbolId ×ₗ SymbolId :=
  toLex (fact.expression.path, toLex (fact.expression.startByte, toLex (fact.expression.endByte,
    toLex (fact.symbol, fact.target))))

def firstOfKey (seen : List (Path ×ₗ ℕ ×ₗ ℕ ×ₗ SymbolId ×ₗ SymbolId)) :
    List (AsyncFunctionFact X) → List (AsyncFunctionFact X)
  | [] => []
  | fact :: later =>
    if fact.key ∈ seen then firstOfKey seen later else fact :: firstOfKey (fact.key :: seen) later

def mergeAsyncFacts (batches : List (List (AsyncFunctionFact X))) : List (AsyncFunctionFact X) :=
  Grouping.sortByKey AsyncFunctionFact.key (firstOfKey [] batches.flatten)

structure WorkId where
  path : Path
  run : Bool
  scan : Bool
  reusable : Bool
  deriving DecidableEq

/-- Pass outputs by their allocation: the output an allocation holds, its rows once the answers that
read every file are known, and its async facts. -/
structure PassOutputs (V W F X : Type) where
  value : ℕ → V
  rows : V → W → List (EntityFact F)
  facts : V → List (AsyncFunctionFact X)

structure Served (W F : Type) where
  output : ℕ
  answers : W
  rows : List (EntityFact F)

structure Merged where
  works : List WorkId
  outputs : List ℕ

structure MergeUpdate where
  full : Bool
  changed : List (ℕ × Option ℕ × ℕ)

structure PerFile (W F X : Type) where
  merged : Merged
  served : List (Served W F)
  servedPaths : List Path
  servedAsync : Finmap fun _ : Path => List (AsyncFunctionFact X)
  servedFacts : Option (ℕ × List (AsyncFunctionFact X))
  versions : Stamps Path
  versionsValid : Bool

structure Passes (W F X : Type) where
  failure : Option String
  others : List Path
  output : ℕ → ℕ
  collision : Bool
  indexPatched : Bool
  asked : ℕ → Bool
  answers : ℕ → W
  sequential : Except String (List (List (EntityFact F)) × List (AsyncFunctionFact X))

def PerFile.new : PerFile W F X := ⟨⟨[], []⟩, [], [], ∅, none, ⟨fun _ => none, 0⟩, false⟩

def outsidePaths (paths : List Path) (locations : List Location) : List Path :=
  ((locations.map Location.path).toFinset \ paths.toFinset).sort (· ≤ ·)

def asyncWorks (paths : List Path) (locations : List Location) : ℕ :=
  paths.length + (outsidePaths paths locations).length

def workIds (paths : List Path) (locations : List Location) (others : List Path) : List WorkId :=
  paths.map (⟨·, true, true, true⟩) ++
    (outsidePaths paths locations).map (⟨·, false, false, false⟩) ++
    others.map (⟨·, false, true, true⟩)

def Passes.outputs (ran : Passes W F X) (works : List WorkId) : List ℕ :=
  (List.range works.length).map ran.output

def Merged.update (merged : Merged) (works : List WorkId) (outputs : List ℕ) : MergeUpdate :=
  let full := decide (merged.works ≠ works)
  let held := if full then [] else merged.outputs
  ⟨full, outputs.zipIdx.filterMap fun (output, place) =>
    if held[place]? = some output then none else some (place, held[place]?, output)⟩

section

variable [DecidableEq V] [DecidableEq W] (passes : PassOutputs V W F X)

def serveRun (output : ℕ) (answers : W) : Served W F :=
  ⟨output, answers, passes.rows (passes.value output) answers⟩

def Served.same (previous : Served W F) (output : ℕ) (answers : W) : Bool :=
  decide ((previous.output = output ∨ passes.value previous.output = passes.value output) ∧
    previous.answers = answers)

def serveAnew (answers : W) (path : Path) (output : ℕ) (previous : Option (Served W F)) :
    Served W F × List Path :=
  (serveRun passes output answers,
    if previous.any fun previous => previous.same passes output answers then [] else [path])

def serveAgain (again : Bool) (answers : W) (path : Path) (output : ℕ) (previous : Served W F) :
    Served W F × List Path :=
  if again = false then (previous, [])
  else if previous.output = output ∧ previous.answers = answers then (previous, [])
  else serveAnew passes answers path output (some previous)

namespace PerFile

def servedAt (state : PerFile W F X) (path : Path) : Option (Served W F) :=
  (Table.collect (state.servedPaths.zip state.served)).lookup path

/-- Every run answered anew: paths that left lose their version unless they have async facts, and a
path without a version gets one. -/
def serveAll (answers : ℕ → W) (paths : List Path) (outputs : List ℕ) (state : PerFile W F X) :
    PerFile W F X :=
  let runs := (paths.zip outputs).zipIdx.map fun ((path, output), place) =>
    serveAnew passes (answers place) path output (state.servedAt path)
  let versions := if state.versionsValid then state.versions else state.versions.clear
  let gone := state.servedPaths.filter fun path => decide (path ∉ paths ∧ path ∉ state.servedAsync)
  let versions := versions.dropAll gone
  let unversioned := paths.filter fun path => (versions.version path).isNone
  { state with
    served := runs.map Prod.fst
    servedPaths := paths
    versions := versions.stampAll (runs.flatMap Prod.snd ++ unversioned) }

def serveChanged (again : ℕ → Bool) (answers : ℕ → W) (paths : List Path) (outputs : List ℕ)
    (state : PerFile W F X) : PerFile W F X :=
  let runs := ((paths.zip outputs).zip state.served).zipIdx.map
    fun (((path, output), previous), place) =>
      serveAgain passes (again place) (answers place) path output previous
  { state with
    served := runs.map Prod.fst
    versions := state.versions.stampAll (runs.flatMap Prod.snd) }

def servesAll (state : PerFile W F X) (update : MergeUpdate) (indexPatched : Bool) (count : ℕ) :
    Bool :=
  update.full || !indexPatched || !state.versionsValid || decide (state.served.length ≠ count)

def serveRuns (ran : Passes W F X) (paths : List Path) (outputs : List ℕ) (update : MergeUpdate)
    (state : PerFile W F X) : PerFile W F X :=
  if state.servesAll update ran.indexPatched paths.length then
    state.serveAll passes ran.answers paths outputs
  else
    let changed := update.changed.map Prod.fst
    state.serveChanged passes (fun place => decide (place ∈ changed) || ran.asked place)
      ran.answers paths outputs

end PerFile

end

section

variable [DecidableEq X]

def byPath (facts : List (AsyncFunctionFact X)) : Finmap fun _ : Path => List (AsyncFunctionFact X) :=
  facts.foldl (fun rows fact =>
    let path := fact.expression.path.clean
    rows.insert path ((rows.lookup path).getD [] ++ [fact])) ∅

namespace PerFile

def recordAsync (state : PerFile W F X)
    (now : Finmap fun _ : Path => List (AsyncFunctionFact X)) (versions : Stamps Path)
    (path : Path) : Stamps Path :=
  if state.servedAsync.lookup path = now.lookup path then versions
  else if path ∈ now ∨ path ∈ state.servedPaths then versions.stamp path
  else versions.drop path

def recordAsyncVersions (facts : List (AsyncFunctionFact X)) (state : PerFile W F X) :
    PerFile W F X :=
  let now := byPath facts
  let paths := (state.servedAsync.keys ∪ now.keys).sort (· ≤ ·)
  { state with
    servedAsync := now
    versions := paths.foldl (state.recordAsync now) state.versions
    versionsValid := true }

variable (passes : PassOutputs V W F X)

def tableFacts (outputs : List ℕ) (asyncCount : ℕ) : List (AsyncFunctionFact X) :=
  mergeAsyncFacts ((outputs.take asyncCount).map fun output => passes.facts (passes.value output))

def factsMoved (every : Bool) (asyncCount : ℕ) (update : MergeUpdate) (state : PerFile W F X) :
    Bool :=
  every || decide (state.servedFacts.map Prod.fst ≠ some asyncCount) ||
    update.changed.any fun (place, held, output) =>
      decide (place < asyncCount) && (!(passes.facts (passes.value output)).isEmpty ||
        held.any fun held => !(passes.facts (passes.value held)).isEmpty)

/-- Serves the runs of a table from the pass outputs; no answer if two passes minted one id. -/
def pooledDemandRuns [DecidableEq V] [DecidableEq W] (ran : Passes W F X) (paths : List Path)
    (locations : List Location) (state : PerFile W F X) :
    Except String (Option (List (List (EntityFact F)) × List (AsyncFunctionFact X))) ×
      PerFile W F X :=
  match ran.failure with
  | some error => (.error error, state)
  | none =>
    let works := workIds paths locations ran.others
    let outputs := ran.outputs works
    let update := state.merged.update works outputs
    if ran.collision then (.ok none, { state with merged := ⟨[], []⟩ })
    else
      let every := state.servesAll update ran.indexPatched paths.length
      let served := { state with merged := ⟨works, outputs⟩ }.serveRuns passes ran paths outputs
        update
      let asyncCount := asyncWorks paths locations
      let rows := served.served.map Served.rows
      if served.factsMoved passes every asyncCount update then
        let facts := tableFacts passes outputs asyncCount
        (.ok (some (rows, facts)),
          { served.recordAsyncVersions facts with servedFacts := some (asyncCount, facts) })
      else (.ok (some (rows, (served.servedFacts.map Prod.snd).getD [])), served)

/-- What a sequential run leaves: nothing served, and versions that describe no table. -/
def forgotten (state : PerFile W F X) : PerFile W F X :=
  { PerFile.new with versions := state.versions }

def contentVersion (state : PerFile W F X) (path : Path) : Option (Option ℕ) :=
  if state.versionsValid then some (state.versions.version path) else none

end PerFile

structure Compiler (ω H K W F X : Type) where
  cancelled : ω → Bool × ω
  sourceDigests : Act ω String (List (Path × H))
  update : List FileChange → Act ω String UpdateOutcome
  discardDerivedState : ω → ω
  runPasses : ω → List (Path × List (EntityDemand K)) → List Location → Passes W F X × ω

structure Project (ω W F X : Type) where
  compiler : ω
  perFile : PerFile W F X

namespace Project

variable [DecidableEq V] [DecidableEq W]

def setCompiler (project : Project ω W F X) (compiler : ω) : Project ω W F X :=
  { project with compiler }

def perFileDemandRuns (compiler : Compiler ω H K W F X) (passes : PassOutputs V W F X)
    (runs : List (Path × List (EntityDemand K))) (locations : List Location) :
    Act (Project ω W F X) String (List (RunAnswer F) × List (Path × AsyncFunctionFact X)) :=
  fun project =>
    let ran := compiler.runPasses project.compiler runs locations
    let placed := fun facts : List (AsyncFunctionFact X) =>
      facts.map fun fact => (fact.expression.path, fact)
    match project.perFile.pooledDemandRuns passes ran.1 (runs.map Prod.fst) locations with
    | (.error error, state) => (.error error, ⟨ran.2, state⟩)
    | (.ok (some (rows, facts)), state) =>
      (.ok (rows.map RunAnswer.rows, placed facts), ⟨ran.2, state⟩)
    | (.ok none, state) =>
      (ran.1.sequential.map fun (results, facts) =>
        (results.map RunAnswer.result, placed facts), ⟨ran.2, state.forgotten⟩)

def backend (compiler : Compiler ω H K W F X) (passes : PassOutputs V W F X) :
    Backend (Project ω W F X) H K F (AsyncFunctionFact X) where
  cancelled project :=
    ((compiler.cancelled project.compiler).1,
      project.setCompiler (compiler.cancelled project.compiler).2)
  sourceDigests := Act.zoom Project.compiler setCompiler compiler.sourceDigests
  update changes := Act.zoom Project.compiler setCompiler (compiler.update changes)
  discardDerivedState project :=
    project.setCompiler (compiler.discardDerivedState project.compiler)
  perFileDemandRuns := perFileDemandRuns compiler passes
  tracksContentVersions project := (project.perFile.contentVersion []).isSome
  contentVersion project path := (project.perFile.contentVersion path).join

end Project

end

end SolidChecker.Producer
