/- source: apps/solid-typefacts/src/passes.rs, inputs.rs -/

import Mathlib.Logic.Equiv.List
import SolidChecker.Foundation.Closure
import SolidChecker.Producer.Demands

namespace SolidChecker.Producer

open Foundation

abbrev Record := List Char

structure Digests (T E O D : Type) where
  text : T → D
  exports : E → D
  resolutions : List Record × List Path → D
  options : O → D
  ambient : List (Path × D) → D
  graph : List (Path × List ℕ) → D
  text_injective : Function.Injective text
  exports_injective : Function.Injective exports
  resolutions_injective : Function.Injective resolutions
  options_injective : Function.Injective options
  ambient_injective : Function.Injective ambient
  graph_injective : Function.Injective graph

instance encodableChar : Encodable Char :=
  .ofLeftInjection Char.toNat (fun code => some (.ofNat code)) fun char => congrArg some char.ofNat_toNat

def Digests.encoded (T E O : Type) [Encodable T] [Encodable E] [Encodable O] : Digests T E O ℕ :=
  ⟨Encodable.encode, Encodable.encode, Encodable.encode, Encodable.encode, Encodable.encode,
    Encodable.encode, Encodable.encode_injective, Encodable.encode_injective,
    Encodable.encode_injective, Encodable.encode_injective, Encodable.encode_injective,
    Encodable.encode_injective⟩

/-- What is read off a file: whether its name is a declaration file's, and the property writes of
its text. -/
structure FileSyntax (T N : Type) where
  isDeclarationFile : Path → Bool
  propertyWrites : Path → T → Finset N

structure ProgramFile (T : Type) where
  name : Path
  text : T
  ambient : Bool
  deriving DecidableEq

def ProgramFile.path {T : Type} (file : ProgramFile T) : Path := file.name.clean

structure Resolution where
  importer : Path
  record : Record
  target : Option Path
  deriving DecidableEq

structure SourceProgram (T E O : Type) where
  files : List (ProgramFile T)
  getSourceFile : Path → Option (ProgramFile T)
  resolutions : Multiset Resolution
  exports : Path → E
  options : O
  distinct : (files.map ProgramFile.path).Nodup
  found : ∀ path file, getSourceFile path = some file → file ∈ files

variable {T E O D N K U : Type}

def SourceProgram.textAt (program : SourceProgram T E O) (path : Path) : Option T :=
  (program.files.find? fun file => decide (file.path = path)).map ProgramFile.text

def SourceProgram.ambient (program : SourceProgram T E O) : List (Path × T) :=
  (program.files.filter ProgramFile.ambient).map fun file => (file.path, file.text)

structure Graph (D : Type) where
  paths : List Path
  edges : List (List ℕ)
  digest : D
  resolutions : List D

namespace Graph

def id (graph : Graph D) (path : Path) : Option ℕ := graph.paths.idxOf? path

def membersOf (program : SourceProgram T E O) : List Path :=
  (program.files.map ProgramFile.path).toFinset.sort (· ≤ ·)

def edgesOf (program : SourceProgram T E O) : List (List ℕ) :=
  (membersOf program).map fun path =>
    ((program.resolutions.filter fun resolution => resolution.importer = path).filterMap
      fun resolution => resolution.target.bind (membersOf program).idxOf?).toFinset.sort (· ≤ ·)

def build (digests : Digests T E O D) (program : SourceProgram T E O) : Graph D :=
  ⟨membersOf program, edgesOf program,
    digests.graph ((membersOf program).zip (edgesOf program)), []⟩

def recordsOf (graph : Graph D) (program : SourceProgram T E O) (path : Path) (edges : List ℕ) :
    List Record × List Path :=
  (((program.resolutions.filter fun resolution => resolution.importer = path).map
    Resolution.record).sort (· ≤ ·), edges.filterMap fun target => graph.paths[target]?)

def computeResolutions (digests : Digests T E O D) (program : SourceProgram T E O)
    (graph : Graph D) : Graph D :=
  { graph with resolutions := (graph.paths.zip graph.edges).map fun (path, edges) =>
      digests.resolutions (graph.recordsOf program path edges) }

def close (graph : Graph D) (seeds : List ℕ) (bits : Finset ℕ) : Finset ℕ :=
  (Closure.closeUnder (fun place => graph.edges.getD place []) (graph.paths.length + 1)
    (seeds.foldl Closure.Walk.push ⟨[], bits⟩)).getD bits

end Graph

def translate (bits : Finset ℕ) (moved : List (Option ℕ)) : Option (Finset ℕ) :=
  ((bits.sort (· ≤ ·)).mapM fun old => (moved[old]?).join).map List.toFinset

abbrev PathInputs (D : Type) := Option D × D × D

structure PassOutput (N U : Type) where
  value : U
  census : List (N × Bool)

structure PassWork (K : Type) where
  path : Path
  run : Option (List (EntityDemand K))
  locations : List Location
  scan : Bool
  reusable : Bool

structure Entry (N K U : Type) where
  demands : Option (List (EntityDemand K))
  locations : List Location
  scan : Bool
  reads : Finset ℕ
  output : PassOutput N U

def Entry.serves [DecidableEq K] (entry : Entry N K U) (work : PassWork K) : Bool :=
  decide (entry.scan = work.scan ∧ entry.locations = work.locations ∧ entry.demands = work.run)

structure CensusWrites (N : Type) where
  counts : N → ℕ
  writes : Finset N

structure Reuse (D N K U : Type) where
  enabled : Bool
  graph : Option (Graph D)
  rebuilt : Bool
  options : Option D
  ambient : Option D
  ambientReads : Finset ℕ
  snapshot : Path → Option (PathInputs D)
  entries : Path → Option (Entry N K U)
  censusFiles : Path → Option (D × Finset N)
  census : Option (Finset N)
  censusWrites : Option (CensusWrites N)
  replaced : Finset Path
  ambientPaths : Finset Path

namespace Reuse

def new (enabled : Bool) : Reuse D N K U :=
  ⟨enabled, none, true, none, none, ∅, fun _ => none, fun _ => none, fun _ => none, none, none, ∅, ∅⟩

def programRebuilt (reuse : Reuse D N K U) : Reuse D N K U := { reuse with rebuilt := true }

def fileReplaced (path : Path) (reuse : Reuse D N K U) : Reuse D N K U :=
  { reuse with replaced := insert path.clean reuse.replaced }

def clear (reuse : Reuse D N K U) : Reuse D N K U := { reuse with entries := fun _ => none }

def retain (keeps : Path → Entry N K U → Bool) (reuse : Reuse D N K U) : Reuse D N K U :=
  { reuse with entries := fun path => (reuse.entries path).filter (keeps path) }

def retainUnchanged (changed : Finset ℕ) (reuse : Reuse D N K U) : Reuse D N K U :=
  reuse.retain fun _ entry => decide (Disjoint entry.reads changed)

section

variable [DecidableEq D] [DecidableEq N] (digests : Digests T E O D) (syntaxes : FileSyntax T N)
  (program : SourceProgram T E O)

def ambientDigest : D :=
  digests.ambient (program.ambient.map fun file => (file.1, digests.text file.2))

variable (reuse : Reuse D N K U)

def replacedFile (graph : Graph D) (path : Path) : Option (ProgramFile T) :=
  (program.getSourceFile path).filter fun file => decide (file.path = path) &&
    (graph.id path).isSome && !file.ambient && decide (path ∉ reuse.ambientPaths)

def inputsNow (graph : Graph D) (replaced : Finset Path) (files : List (ProgramFile T))
    (path : Path) : Option (ℕ × Path × PathInputs D) := do
  let place ← graph.id path
  let resolutions ← graph.resolutions[place]?
  let text := if path ∈ replaced then
      (files.find? fun file => decide (file.path = path)).map fun file => digests.text file.text
    else (reuse.snapshot path).bind Prod.fst
  pure (place, path, text, digests.exports (program.exports path), resolutions)

def compareInputs (held : Finset ℕ × (Path → Option (PathInputs D)))
    (now : ℕ × Path × PathInputs D) : Finset ℕ × (Path → Option (PathInputs D)) :=
  if held.2 now.2.1 ≠ some now.2.2 then
    (insert now.1 held.1, Function.update held.2 now.2.1 (some now.2.2))
  else held

def CensusWrites.replace (census : CensusWrites N) (old new : Finset N) : CensusWrites N :=
  let removed : CensusWrites N :=
    let counts := fun name => if name ∈ old then census.counts name - 1 else census.counts name
    ⟨counts, census.writes.filter fun name =>
      ¬ (name ∈ old ∧ 0 < census.counts name ∧ counts name = 0)⟩
  let counts := fun name => if name ∈ new then removed.counts name + 1 else removed.counts name
  ⟨counts, removed.writes ∪ new.filter fun name => counts name = 1⟩

variable (held : (Path → Option (D × Finset N)) × CensusWrites N)

def patchCensus (file : ProgramFile T) : (Path → Option (D × Finset N)) × CensusWrites N :=
  let text := digests.text file.text
  if syntaxes.isDeclarationFile file.name then held
  else if (held.1 file.path).map Prod.fst = some text then held
  else
    let half := syntaxes.propertyWrites file.path file.text
    (Function.update held.1 file.path (some (text, half)),
      CensusWrites.replace held.2 (((held.1 file.path).map Prod.snd).getD ∅) half)

/-- A table after nothing but replacements of files that are not global: only the replaced files and
the paths whose exports moved are compared. None where that does not hold. -/
def refreshInPlace (replaced exportChanges : Finset Path) (reuse : Reuse D N K U) :
    Option (Reuse D N K U) := do
  if reuse.rebuilt ∨ reuse.enabled = false then none
  else
    let graph ← reuse.graph
    if reuse.options ≠ some (digests.options program.options) then none
    else
      let files ← (replaced.sort (· ≤ ·)).mapM (replacedFile program reuse graph)
      let now ← (replaced.sort (· ≤ ·) ++ exportChanges.sort (· ≤ ·)).mapM
        (inputsNow digests program reuse graph replaced files)
      let (changed, snapshot) := now.foldl compareInputs (∅, reuse.snapshot)
      let kept := ({ reuse with snapshot } : Reuse D N K U).retainUnchanged changed
      match reuse.censusWrites with
      | none => pure kept
      | some writes =>
        let (censusFiles, writes) := files.foldl (patchCensus digests syntaxes)
          (reuse.censusFiles, writes)
        pure { kept with censusFiles, censusWrites := some writes }

def moveEntry (old graph : Graph D) (ambientReads : Finset ℕ) (path : Path)
    (entry : Entry N K U) : Option (Entry N K U) := do
  let place ← graph.id path
  let reads := graph.close [place] ambientReads
  let held := if old.paths = graph.paths then some entry.reads
    else translate entry.reads (old.paths.map graph.id)
  if held ≠ some reads then none else some { entry with reads }

def graphNow : Graph D :=
  let graph := Graph.build digests program
  match reuse.graph with
  | some old =>
    if reuse.rebuilt = false ∧ old.digest = graph.digest then
      { graph with resolutions := old.resolutions }
    else graph.computeResolutions digests program
  | none => graph.computeResolutions digests program

def snapshotOf (graph : Graph D) (path : Path) : Option (PathInputs D) := do
  let place ← graph.id path
  let resolutions ← graph.resolutions[place]?
  pure ((program.textAt path).map digests.text, digests.exports (program.exports path), resolutions)

def moveEntries (old graph : Graph D) (snapshot : Path → Option (PathInputs D))
    (ambientReads : Finset ℕ) (reuse : Reuse D N K U) : Reuse D N K U :=
  let changed := (Finset.range old.paths.length).filter fun place =>
    (old.paths[place]?).any fun path => decide (snapshot path ≠ reuse.snapshot path)
  let kept := reuse.retainUnchanged changed
  if old.digest ≠ graph.digest then
    { kept with entries := fun path =>
        (kept.entries path).bind (moveEntry old graph ambientReads path) }
  else kept

def refreshAll : Reuse D N K U :=
  let graph := graphNow digests program reuse
  let options := digests.options program.options
  let ambient := ambientDigest digests program
  let cleared := if reuse.options ≠ some options ∨ reuse.ambient ≠ some ambient then reuse.clear
    else reuse
  let snapshot := snapshotOf digests program graph
  let ambientFiles := program.files.filter ProgramFile.ambient
  let ambientReads := graph.close (ambientFiles.filterMap fun file => graph.id file.path) ∅
  let moved := match reuse.graph with
    | some old => cleared.moveEntries old graph snapshot ambientReads
    | none => cleared.clear
  let kept := { moved with
    rebuilt := false
    options := some options
    ambient := some ambient
    ambientPaths := (ambientFiles.map ProgramFile.path).toFinset
    snapshot
    ambientReads
    graph := some graph }
  if reuse.enabled then kept else kept.clear

def refresh (exportChanges : Option (Finset Path)) (reuse : Reuse D N K U) : Reuse D N K U :=
  let started := { reuse with census := none, replaced := ∅ }
  match exportChanges.bind fun exportChanges =>
      refreshInPlace digests syntaxes program reuse.replaced exportChanges started with
  | some refreshed => refreshed
  | none => refreshAll digests program { started with censusWrites := none }

def censusHalf (censusFiles : Path → Option (D × Finset N)) (file : ProgramFile T) : Finset N :=
  match censusFiles file.path with
  | some (text, half) =>
    if text = digests.text file.text then half
    else syntaxes.propertyWrites file.path file.text
  | none => syntaxes.propertyWrites file.path file.text

def countFile (file : ProgramFile T) : (Path → Option (D × Finset N)) × CensusWrites N :=
  if syntaxes.isDeclarationFile file.name then held
  else
    let half := censusHalf digests syntaxes held.1 file
    (Function.update held.1 file.path (some (digests.text file.text, half)),
      ⟨fun name => if name ∈ half then held.2.counts name + 1 else held.2.counts name,
        held.2.writes ∪ half⟩)

def propertyCensus : Finset N × Reuse D N K U :=
  match reuse.census, reuse.censusWrites with
  | some census, _ => (census, reuse)
  | none, some held => (held.writes, { reuse with census := some held.writes })
  | none, none =>
    let (censusFiles, counted) := program.files.foldl (countFile digests syntaxes)
      (reuse.censusFiles, ⟨fun _ => 0, ∅⟩)
    let present := ((program.files.filter fun file =>
      !syntaxes.isDeclarationFile file.name).map ProgramFile.path).toFinset
    (counted.writes, { reuse with
      censusFiles := fun path => if path ∈ present then censusFiles path else none
      census := some counted.writes
      censusWrites := some counted })

/-- The kept output that serves a work, if every census answer it was given still holds. -/
def lookup [DecidableEq K] (work : PassWork K) (reuse : Reuse D N K U) :
    Option (PassOutput N U) × Reuse D N K U :=
  if work.reusable = false then (none, reuse)
  else match reuse.entries work.path with
    | none => (none, reuse)
    | some entry =>
      if entry.serves work = false then (none, reuse)
      else if entry.output.census = [] then (some entry.output, reuse)
      else
        let (census, reuse) := propertyCensus digests syntaxes program reuse
        if entry.output.census.any fun asked => decide (decide (asked.1 ∈ census) ≠ asked.2) then
          (none, { reuse with entries := Function.update reuse.entries work.path none })
        else (some entry.output, reuse)

end

def keep (work : PassWork K) (output : PassOutput N U) (reuse : Reuse D N K U) : Reuse D N K U :=
  if reuse.enabled = false ∨ work.reusable = false then reuse
  else match reuse.graph.bind fun graph => (graph.id work.path.clean).map fun place =>
      graph.close [place] reuse.ambientReads with
    | none => reuse
    | some reads =>
      let entry : Entry N K U := ⟨work.run, work.locations, work.scan, reads, output⟩
      { reuse with entries := Function.update reuse.entries work.path (some entry) }

end Reuse

end SolidChecker.Producer
