/- source: apps/solid-typefacts/src/overlay.rs, gocompat.rs -/

import Mathlib.Data.Finset.Sort
import SolidChecker.Foundation.Dialogue
import SolidChecker.Foundation.Table
import SolidChecker.Producer.Path

namespace SolidChecker.Building

open Foundation
open Producer (Path)

abbrev Text := List UInt8

structure FileInfo where
  name : Path
  size : ℕ
  mode : ℕ
  modTime : Option ℕ
  deriving DecidableEq

structure Entries where
  files : List Path
  directories : List Path
  symlinks : Option (List Path)
  deriving DecidableEq

inductive Question
  | files (path : Path)
  | directories (path : Path)
  | stats (path : Path)
  | realpaths (path : Path)
  | entries (path : Path)
  | reads (path : Path)
  deriving DecidableEq

namespace Question

def Answer : Question → Type
  | .files _ => Bool
  | .directories _ => Bool
  | .stats _ => Option FileInfo
  | .realpaths _ => Path
  | .entries _ => Entries
  | .reads _ => Option Text

def path : Question → Path
  | .files path | .directories path | .stats path | .realpaths path | .entries path
  | .reads path => path

def isRead : Question → Bool
  | .reads _ => true
  | _ => false

end Question

abbrev Base := ∀ question : Question, question.Answer

abbrev Asks (R : Type) := Dialogue Question.Answer R

variable (path : Path)

def bundled : Bool :=
  path.tails.any fun rest => [':', '/', '/'].isPrefixOf rest

def cleanOverlayPath : Path := if bundled path then path else path.clean

def baseOf : Path := path.elements.getLast?.getD path

def dir : Path :=
  if '/' ∈ path then Path.clean (['/'].intercalate path.elements.dropLast ++ ['/']) else ['.']

def insideParts : List Path → List Path → Option (Path × Bool)
  | left :: base, right :: target => if left = right then insideParts base target else none
  | _ :: _, [] => none
  | [], [] => none
  | [], first :: rest => if first = ['.', '.'] then none else some (first, decide (rest ≠ []))

/-- The first element of `target` below `base`, and whether another one follows, if `target` is
strictly inside. -/
def inside (base target : Path) : Option (Path × Bool) :=
  let parts (path : Path) := path.elements.filter fun part => decide (part ≠ [] ∧ part ≠ ['.'])
  if base.rooted ≠ target.rooted then none else insideParts (parts base) (parts target)

def fileInfo (size : ℕ) : FileInfo := ⟨baseOf path, min size (2 ^ 63 - 1), 0, none⟩

structure State where
  files : Finmap fun _ : Path => Text
  deleted : Finset Path

namespace State

def empty : State := ⟨∅, ∅⟩

variable (state : State)

def set (source : Text) : State :=
  let path := cleanOverlayPath path
  ⟨state.files.insert path source, state.deleted.erase path⟩

def delete : State :=
  let path := cleanOverlayPath path
  ⟨state.files.erase path, insert path state.deleted⟩

def fileExists : Asks Bool :=
  let path := cleanOverlayPath path
  if path ∈ state.deleted then .done false
  else if path ∈ state.files then .done true
  else .ask (.files path) .done

def readFile : Asks (Option Text) :=
  let path := cleanOverlayPath path
  if path ∈ state.deleted then .done none
  else match state.files.lookup path with
    | some source => .done (some source)
    | none => .ask (.reads path) .done

def directoryExists : Asks Bool :=
  .ask (.directories path) fun (found : Bool) =>
    if found then .done true
    else
      let directory := (cleanOverlayPath path).clean
      .done (decide (∃ file ∈ state.files.keys, (inside directory file.clean).isSome))

def mergeEntries (entries : Entries) : Entries :=
  let directory := cleanOverlayPath path
  let removed := (state.deleted.filter fun file => dir file = directory).image baseOf
  let below := fun nested : Bool => state.files.keys.biUnion fun file =>
    match inside directory.clean file.clean with
    | some (name, deeper) => if deeper = nested then {name} else ∅
    | none => ∅
  let files := entries.files.toFinset \ removed ∪ below false
  let directories := entries.directories.toFinset ∪ below true
  ⟨files.sort (· ≤ ·), directories.sort (· ≤ ·),
    entries.symlinks.map fun symlinks => symlinks.filter fun name =>
      decide (name ∈ files ∨ name ∈ directories)⟩

def getAccessibleEntries : Asks Entries :=
  .ask (.entries path) fun entries => .done (state.mergeEntries path entries)

def stat : Asks (Option FileInfo) :=
  let path := cleanOverlayPath path
  if path ∈ state.deleted then .done none
  else match state.files.lookup path with
    | some source => .done (some (fileInfo path source.length))
    | none => .ask (.stats path) .done

def realpath : Asks Path :=
  let path := cleanOverlayPath path
  if path ∈ state.files then .done path else .ask (.realpaths path) .done

def answer : ∀ question : Question, Asks question.Answer
  | .files path => state.fileExists path
  | .directories path => state.directoryExists path
  | .stats path => state.stat path
  | .realpaths path => state.realpath path
  | .entries path => state.getAccessibleEntries path
  | .reads path => state.readFile path

def overlaid {R : Type} (asks : Asks R) : Asks R := asks.through state.answer

end State

abbrev BuildQueries := Finset Question

structure Lookups where
  answers : Finmap Question.Answer
  readPaths : Finset Path

namespace Lookups

def empty : Lookups := ⟨∅, ∅⟩

def remember (base : Base) (question : Question) (lookups : Lookups) :
    question.Answer × Lookups :=
  match lookups.answers.lookup question with
  | some answer => (answer, lookups)
  | none =>
    (base question, { lookups with answers := lookups.answers.insert question (base question) })

def consult (base : Base) (question : Question) (lookups : Lookups) : question.Answer × Lookups :=
  if question.isRead then
    (base question, { lookups with readPaths := insert question.path lookups.readPaths })
  else lookups.remember base question

def queries (lookups : Lookups) : BuildQueries :=
  (lookups.answers.keys ∪ lookups.readPaths.image Question.reads).filter fun question =>
    bundled question.path = false

end Lookups

structure OverlayFs where
  state : State
  lookups : Option Lookups

namespace OverlayFs

def new : OverlayFs := ⟨State.empty, none⟩

def duplicate (fs : OverlayFs) : OverlayFs := ⟨fs.state, none⟩

def consult (base : Base) (question : Question) (fs : OverlayFs) : question.Answer × OverlayFs :=
  match fs.lookups with
  | some lookups =>
    let (answer, lookups) := lookups.consult base question
    (answer, { fs with lookups := some lookups })
  | none => (base question, fs)

def performFrom {R : Type} (base : Base) : Asks R → OverlayFs → R × OverlayFs
  | .done result, fs => (result, fs)
  | .ask question next, fs =>
    let (answer, fs) := fs.consult base question
    performFrom base (next answer) fs

def perform {R : Type} (base : Base) (asks : Asks R) (fs : OverlayFs) : R × OverlayFs :=
  performFrom base (fs.state.overlaid asks) fs

def buildScope (fs : OverlayFs) : Bool × OverlayFs :=
  match fs.lookups with
  | some _ => (false, fs)
  | none => (true, { fs with lookups := some Lookups.empty })

def finishWithQueries (owner : Bool) (fs : OverlayFs) : BuildQueries × OverlayFs :=
  if owner then ((fs.lookups.map Lookups.queries).getD ∅, { fs with lookups := none })
  else (∅, fs)

end OverlayFs

end SolidChecker.Building
