/- source: solid-facts-backend/src/program_boundary.rs -/

import Mathlib.Data.String.Basic
import SolidChecker.Foundation.Dialogue
import SolidChecker.Suppression.Comments

namespace SolidChecker.Backend.ProgramBoundary

open Foundation Suppression

inductive Value where
  | bool (value : Bool)
  | string (text : String)
  | array (items : List Value)
  | object (fields : List (String × Value))
  | other

abbrev Fields := List (String × Value)

def Value.asStr : Value → Option String
  | .string text => some text
  | _ => none

structure Path where
  parts : List String
  text : String

namespace Path

def spell : List String → String
  | "/" :: parts => "/" ++ "/".intercalate parts
  | parts => "/".intercalate parts

def ofParts (parts : List String) : Path := ⟨parts, spell parts⟩

def components (text : List Char) : List String :=
  let parts := text.splitOn '/'
  (if text.head? = some '/' then ["/"] else if parts.head? = some ['.'] then ["."] else []) ++
    (parts.filter fun part => part ≠ [] ∧ part ≠ ['.']).map String.ofList

def join (path : Path) (name : String) : Path :=
  let text := if name.toList.head? = some '/' then name
    else path.text ++ (if path.text.toList.getLast?.all (· = '/') then "" else "/") ++ name
  ⟨components text.toList, text⟩

def normalized (path : Path) : List String :=
  path.parts.foldl (fun resolved part =>
    if part = "." then resolved
    else if part ≠ ".." then resolved ++ [part]
    else if resolved = ["/"] then resolved else resolved.dropLast) []

def trimBack : List Char → List Char
  | '/' :: rest => trimBack rest
  | '.' :: '/' :: rest => trimBack rest
  | rest => rest

def parent (path : Path) : Option Path :=
  if path.parts = [] ∨ path.parts = ["/"] then none
  else
    let rest := trimBack ((trimBack path.text.toList.reverse).dropWhile (· ≠ '/'))
    some ⟨path.parts.dropLast,
      if rest = [] ∧ path.parts.head? = some "/" then "/" else String.ofList rest.reverse⟩

def ancestorsUpTo : ℕ → Path → List Path
  | 0, path => [path]
  | count + 1, path => path :: (match path.parent with
      | some above => ancestorsUpTo count above
      | none => [])

def ancestors (path : Path) : List Path := ancestorsUpTo path.parts.length path

end Path

inductive Kind where
  | directory
  | link
  | other
deriving DecidableEq

inductive Object where
  | file (text : Option String)
  | directory (entries : List (String × Kind))

def Object.isDir : Object → Bool
  | .file _ => false
  | .directory _ => true

inductive Entry (Stamp : Type) where
  | link
  | object (stamp : Stamp)

/-- A state of the file system, by components. A stamp belongs to one object with one content; what
is not a link is what following it leads to. -/
structure Disk {Stamp : Type} (object : Stamp → Object) where
  entry : List String → Option (Entry Stamp)
  follow : List String → Option Object
  real : List String → Option (List String)
  follow_object : ∀ parts stamp, entry parts = some (.object stamp) →
    follow parts = some (object stamp)
  follow_none : ∀ parts, entry parts = none → follow parts = none

inductive Read where
  | absent
  | unreadable
  | text (text : String)
deriving DecidableEq

inductive Seen (Stamp : Type) where
  | absent (path : Path)
  | stamped (path : Path) (stamp : Stamp)
  | canonical (path real : Path)

structure Reads (Stamp : Type) where
  transcript : List UInt8
  files : List (List String × Read)
  seen : List (Seen Stamp)
  cacheable : Bool

inductive Question where
  | file (path : Path)
  | subdirectories (directory : Path)
  | child (path : Path)

/-- What the decision is told: a file, the directories in one, whether a path is a directory. -/
def Answer : Question → Type
  | .file _ => Read
  | .subdirectories _ => List Path
  | .child _ => Bool

abbrev Deciding (R : Type) := Dialogue Answer R

def bytes (text : String) : List UInt8 := text.toUTF8.data.toList

section

variable {Stamp : Type} {object : Stamp → Object} (disk : Disk object)

namespace Disk

def isDir (path : Path) : Bool := (disk.follow path.parts).any Object.isDir

def childNames (directory : Path) (entries : List (String × Kind)) : List String :=
  (entries.filter fun entry => match entry.2 with
    | .directory => true
    | .link => disk.isDir (directory.join entry.1)
    | .other => false).map Prod.fst

end Disk

def Seen.holds [DecidableEq Stamp] : Seen Stamp → Bool
  | .absent path => (disk.entry path.parts).isNone
  | .stamped path stamp => match disk.entry path.parts with
      | some (.object now) => decide (now = stamp)
      | _ => false
  | .canonical path real => decide (disk.real path.parts = some real.parts)

namespace Reads

def observe (path : Path) (reads : Reads Stamp) : Reads Stamp :=
  match disk.entry path.parts with
  | none => { reads with seen := reads.seen ++ [.absent path] }
  | some .link => { reads with cacheable := false }
  | some (.object stamp) => { reads with seen := reads.seen ++ [.stamped path stamp] }

def note (chunks : List (List UInt8)) (reads : Reads Stamp) : Reads Stamp :=
  { reads with transcript := reads.transcript ++ chunks.flatten }

variable (sha256 : List UInt8 → List UInt8)

def readFile (path : Path) (reads : Reads Stamp) : Read × Reads Stamp :=
  let reads := (reads.observe disk path).note [bytes "file\x00", bytes path.text]
  match disk.follow path.parts with
  | some (.file (some text)) =>
    (.text text, reads.note [bytes "\x00present\x00", sha256 (bytes text)])
  | some (.file none) => (.unreadable, reads.note [bytes "\x00unreadable"])
  | _ => (.absent, reads.note [bytes "\x00absent"])

def file (path : Path) (reads : Reads Stamp) : Read × Reads Stamp :=
  match reads.files.lookup path.parts with
  | some read => (read, reads)
  | none =>
    let (read, reads) := reads.readFile disk sha256 path
    (read, { reads with files := (path.parts, read) :: reads.files })

def subdirectories (directory : Path) (reads : Reads Stamp) : List Path × Reads Stamp :=
  let reads := reads.observe disk directory
  let entries : List (String × Kind) := match disk.follow directory.parts with
    | some (.directory entries) =>
      entries.filter fun entry => decide (entry.1 ≠ "node_modules" ∧ entry.1 ≠ ".git")
    | _ => []
  let children := ((disk.childNames directory entries).mergeSort fun first second =>
    decide (first ≤ second)).map directory.join
  let links := entries.any fun entry => decide (entry.2 = .link)
  (children, { reads with cacheable := reads.cacheable && !links }.note
    (bytes "list\x00" :: bytes directory.text ::
      children.flatMap fun child : Path => [bytes "\x00", bytes child.text]))

def perform : ∀ question, Reads Stamp → Answer question × Reads Stamp
  | .file path, reads => reads.file disk sha256 path
  | .subdirectories directory, reads => reads.subdirectories disk directory
  | .child path, reads => (disk.isDir path, reads.observe disk path)

end Reads

end

def readFile (path : Path) : Deciding Read := .ask (.file path) .done

def subdirectories (directory : Path) : Deciding (List Path) := .ask (.subdirectories directory) .done

def isDirectory (path : Path) : Deciding Bool := .ask (.child path) .done

inductive Declared where
  | none
  | patterns (patterns : List String)
  | unreadable

section

def lines (text : List Char) : List (List Char) :=
  let parts := text.splitOn '\n'
  parts.dropLast.map (fun line => if line.getLast? = some '\r' then line.dropLast else line) ++
    (parts.getLast?.filter fun line => line ≠ []).toList

def beforeComment : List Char → List Char
  | ' ' :: '#' :: _ => []
  | letter :: rest => letter :: beforeComment rest
  | [] => []

def unquote (item : List Char) : Option String :=
  let item := (beforeComment (trim isWhitespace item)).rdropWhile isWhitespace
  let item := if 2 ≤ item.length ∧ item.head? = item.getLast? ∧
      (item.head? = some '\'' ∨ item.head? = some '"') then item.tail.dropLast else item
  if item.head?.all fun first => ['&', '*', '|', '>', '\x7b', '['].contains first then none
  else some (String.ofList item)

def blockItems : List (List Char) → Option (List String)
  | [] => some []
  | next :: later =>
    let trimmed := trim isWhitespace next
    if trimmed = [] ∨ trimmed.head? = some '#' then blockItems later
    else if !(next.head?.any isWhitespace) ∧ next.head? ≠ some '-' then some []
    else match trimmed with
      | '-' :: item => (unquote item).bind fun pattern => (blockItems later).map (pattern :: ·)
      | _ => none

def pnpmLines : List (List Char) → Option (List String)
  | [] => some ["**"]
  | line :: later =>
    match stripStart "packages:".toList line with
    | none => pnpmLines later
    | some rest =>
      match trim isWhitespace rest with
      | '[' :: flow =>
        if flow.getLast? = some ']' then ((flow.dropLast.splitOn ',').filter fun item =>
          trim isWhitespace item ≠ []).mapM unquote
        else none
      | rest => if rest = [] ∨ rest.head? = some '#' then blockItems later else none

def pnpmPatterns (text : String) : Option (Option (List String)) :=
  (pnpmLines (lines text.toList)).map some

end

section

variable (parse : String → Option Value)

def parseFields (text : String) : Option Fields :=
  match parse text with
  | some (.object fields) => some fields
  | _ => none

def strings : Value → Option (List String)
  | .array items => items.mapM Value.asStr
  | _ => none

def packagePatterns (text : String) : Option (Option (List String)) :=
  (parseFields parse text).bind fun fields => match fields.lookup "workspaces" with
    | none => some none
    | some (.object object) => match object.lookup "packages" with
        | none => some (some [])
        | some packages => (strings packages).map some
    | some packages => (strings packages).map some

def lernaPatterns (text : String) : Option (Option (List String)) :=
  (parseFields parse text).bind fun fields => match fields.lookup "packages" with
    | none => some (some ["packages/*"])
    | some packages => (strings packages).map some

def declaredIn (patterns : String → Option (Option (List String))) :
    Read → Option (Option (List String))
  | .absent => some none
  | .unreadable => none
  | .text text => patterns text

def workspacePatterns (root : Path) : Deciding Declared := do
  match declaredIn (packagePatterns parse) (← readFile (root.join "package.json")) with
  | none => pure .unreadable
  | some package =>
  match declaredIn pnpmPatterns (← readFile (root.join "pnpm-workspace.yaml")) with
  | none => pure .unreadable
  | some pnpm =>
  match declaredIn (lernaPatterns parse) (← readFile (root.join "lerna.json")) with
  | none => pure .unreadable
  | some lerna =>
  if (← readFile (root.join "rush.json")) ≠ .absent then pure .unreadable
  else if (package.or pnpm).or lerna ≠ none then
    pure (.patterns (package.getD [] ++ pnpm.getD [] ++ lerna.getD []))
  else if (← readFile (root.join "nx.json")) ≠ .absent then pure .unreadable
  else pure .none

def directoryBudget : ℕ := 20000

def wildcardMatches : List Char → List Char → Bool
  | [], name => name.isEmpty
  | '*' :: rest, name => name.tails.any (wildcardMatches rest)
  | '?' :: rest, name => match name with
      | _ :: tail => wildcardMatches rest tail
      | [] => false
  | literal :: rest, name => match name with
      | first :: tail => first == literal && wildcardMatches rest tail
      | [] => false

def eachDirectory (visit : Path → ℕ → Deciding (Option (ℕ × List Path))) :
    List Path → ℕ → Deciding (Option (ℕ × List Path))
  | [], visited => pure (some (visited, []))
  | child :: later, visited => do
      match ← visit child visited with
      | none => pure none
      | some (visited, found) =>
        return (← eachDirectory visit later visited).map fun (visited, others) =>
          (visited, found ++ others)

/-- The directories that segments match. A call is as deep as it has visited directories, so that
the first argument runs out only where the budget has. -/
def matchingDirectories : ℕ → List (List Char) → Path → ℕ → Deciding (Option (ℕ × List Path))
  | 0, _, _, _ => pure none
  | depth + 1, segments, directory, visited =>
    if directoryBudget < visited + 1 then pure none
    else match segments with
      | [] => pure (some (visited + 1, [directory]))
      | segment :: rest => do
          if segment = ['*', '*'] then
            match ← matchingDirectories depth rest directory (visited + 1) with
            | none => pure none
            | some (visited, here) =>
              let children ← subdirectories directory
              return (← eachDirectory (matchingDirectories depth segments) children visited).map
                fun (visited, others) => (visited, here ++ others)
          else if segment.any fun letter => letter == '*' || letter == '?' then
            let children ← subdirectories directory
            eachDirectory (matchingDirectories depth rest) (children.filter fun child =>
              child.parts.getLast?.any fun name => wildcardMatches segment name.toList)
              (visited + 1)
          else
            let child := directory.join (String.ofList segment)
            if ← isDirectory child then matchingDirectories depth rest child (visited + 1)
            else pure (some (visited + 1, []))

def segmentsOf (pattern : List Char) : Bool × List (List Char) :=
  let negated := pattern.head? = some '!'
  let pattern := if negated then pattern.tail else pattern
  let pattern := (stripStart ['.', '/'] pattern).getD pattern
  (negated, (pattern.rdropWhile (· = '/')).splitOn '/')

def unsupported (segment : List Char) : Bool :=
  segment = [] || segment = ['.', '.'] ||
    segment.any ['\x7b', '\x7d', '[', ']', '(', ')', '!', '+', '@', '\\'].contains

def matched (root : Path) : List String → ℕ → Deciding (Option (List Path × List Path))
  | [], _ => pure (some ([], []))
  | pattern :: later, visited => do
      let (negated, segments) := segmentsOf pattern.toList
      if segments.any unsupported then pure none
      else match ← matchingDirectories (directoryBudget + 1) segments root visited with
        | none => pure none
        | some (visited, found) =>
          return (← matched root later visited).map fun (included, excluded) =>
            if negated then (included, found ++ excluded) else (found ++ included, excluded)

def withManifest : List Path → Deciding (List Path)
  | [] => pure []
  | directory :: later => do
      let read ← readFile (directory.join "package.json")
      let others ← withManifest later
      return if read ≠ .absent then directory :: others else others

def samePath (first second : Path) : Bool := decide (first.parts = second.parts)

def dedup : List Path → List Path
  | first :: second :: rest =>
    if samePath first second then dedup (first :: rest) else first :: dedup (second :: rest)
  | rest => rest

def members (root : Path) (patterns : List String) : Deciding (Option (List Path)) := do
  match ← matched root patterns 0 with
  | none => pure none
  | some (included, excluded) =>
    let included := dedup (included.mergeSort fun first second =>
      decide (first.parts ≤ second.parts))
    return some (← withManifest (included.filter fun directory =>
      !excluded.any (samePath directory)))

def dependencyFields : List String :=
  ["dependencies", "devDependencies", "peerDependencies", "optionalDependencies"]

def pathProtocols : List String := ["file:", "link:", "portal:", "workspace:"]

def isDependency (sibling : Path) (name : Option String) (package : Path)
    (entry : String × Value) : Bool :=
  decide (name = some entry.1) || entry.2.asStr.any fun spec =>
    (name.any fun name => ["workspace:", "npm:"].any fun protocol =>
      ((stripStart protocol.toList spec.toList).bind (stripStart name.toList)).any fun rest =>
        rest.isEmpty || rest.head? = some '@') ||
    pathProtocols.any fun protocol => (stripStart protocol.toList spec.toList).any fun target =>
      (target.head? = some '.' || target.head? = some '/') &&
        (sibling.join (String.ofList target)).normalized = package.parts

def dependsOn (fields : Fields) (sibling : Path) (name : Option String) (package : Path) : Bool :=
  dependencyFields.any fun field => match fields.lookup field with
    | some (.object dependencies) => dependencies.any (isDependency sibling name package)
    | _ => false

def siblingMayImport (package : Path) (name : Option String) (rootPackage : Option Path) :
    List Path → Deciding Bool
  | [] => pure false
  | sibling :: later => do
      if samePath sibling package then siblingMayImport package name rootPackage later
      else match ← readFile (sibling.join "package.json") with
        | .text text => match parseFields parse text with
            | none => pure true
            | some fields =>
              if dependsOn fields sibling name package then pure true
              else siblingMayImport package name rootPackage later
        | read =>
          -- A workspace root may have no manifest; a member always has one.
          if read = .absent ∧ rootPackage.any (samePath sibling) then
            siblingMayImport package name rootPackage later
          else pure true

def workspaceMayImport (package : Path) (name : Option String) : List Path → Deciding Bool
  | [] => pure false
  | root :: above => do
      match ← workspacePatterns parse root with
      | .none => workspaceMayImport package name above
      | .unreadable => pure true
      | .patterns patterns =>
        match ← members root patterns with
        | none => pure true
        | some members =>
          let isRoot := samePath root package
          if !isRoot && !members.any (samePath · package) then
            workspaceMayImport package name above
          else
            let rootPackage := if isRoot then none else some root
            if ← siblingMayImport parse package name rootPackage
                (members ++ rootPackage.toList) then pure true
            else workspaceMayImport package name above

inductive Boundary where
  | opened
  | closed
deriving DecidableEq

def nearest : List Path → Deciding (Option (Path × Read))
  | [] => pure none
  | directory :: above => do
      match ← readFile (directory.join "package.json") with
      | .absent => nearest above
      | read => pure (some (directory, read))

def published : List String := ["exports", "main", "module", "types", "typings", "bin"]

def decideFrom (start : Path) : Deciding Boundary := do
  match ← nearest start.ancestors with
  | some (package, .text text) =>
    match parseFields parse text with
    | none => pure .opened
    | some fields =>
      let isPrivate := match fields.lookup "private" with
        | some (.bool true) => true
        | _ => false
      if !isPrivate && published.any fun field => (fields.lookup field).isSome then pure .opened
      else
        let name := (fields.lookup "name").bind Value.asStr
        if ← workspaceMayImport parse package name package.ancestors then pure .opened
        else pure .closed
  | _ => pure .opened

structure Decision where
  boundary : Boundary
  digest : List UInt8

variable {Stamp : Type} {object : Stamp → Object} (sha256 : List UInt8 → List UInt8)
  (disk : Disk object)

def rawStart (project : Path) : Path :=
  if disk.isDir project then project else project.parent.getD project

def startOf (project : Path) : Path :=
  ((disk.real (rawStart disk project).parts).map Path.ofParts).getD (rawStart disk project)

def decideObserved (project : Path) : Decision × Option (List (Seen Stamp)) :=
  let start := startOf disk project
  let (boundary, reads) := (decideFrom parse start).runWith (Reads.perform disk sha256)
    ⟨[], [], [], true⟩
  (⟨boundary, sha256 reads.transcript⟩,
    if reads.cacheable then some (.canonical (rawStart disk project) start :: reads.seen) else none)

def decideProject (project : Path) : Decision := (decideObserved parse sha256 disk project).1

structure BoundaryCache (Stamp : Type) where
  kept : Option (Path × Decision × List (Seen Stamp))

namespace BoundaryCache

variable [DecidableEq Stamp]

def decide (project : Path) (cache : BoundaryCache Stamp) : Decision × BoundaryCache Stamp :=
  match cache.kept.filter fun kept => samePath kept.1 project && kept.2.2.all (Seen.holds disk) with
  | some (_, decision, _) => (decision, cache)
  | none =>
    let (decision, witness) := decideObserved parse sha256 disk project
    (decision, ⟨witness.map fun witness => (project, decision, witness)⟩)

def run : List (Disk object × Path) → BoundaryCache Stamp → List Decision
  | [], _ => []
  | (disk, project) :: later, cache =>
    let (decision, cache) := cache.decide parse sha256 disk project
    decision :: run later cache

end BoundaryCache

end

section

variable {Stamp : Type} [DecidableEq Stamp] {object : Stamp → Object} {disk later : Disk object}

def Reads.Stands (later : Disk object) (reads : Reads Stamp) : Prop :=
  reads.cacheable = true ∧ reads.seen.all (Seen.holds later) = true

private theorem observe_stands {path : Path} {reads : Reads Stamp}
    (stands : (reads.observe disk path).Stands later) : reads.Stands later ∧
      reads.observe later path = reads.observe disk path ∧
        later.follow path.parts = disk.follow path.parts := by
  obtain ⟨cacheable, seen⟩ := stands
  unfold Reads.observe at cacheable seen ⊢
  cases entry : disk.entry path.parts with
  | none =>
    simp only [entry, List.all_append, Bool.and_eq_true, List.all_cons, List.all_nil, Seen.holds,
      Option.isNone_iff_eq_none] at cacheable seen
    refine ⟨⟨cacheable, seen.1⟩, by rw [seen.2.1], ?_⟩
    rw [disk.follow_none _ entry, later.follow_none _ seen.2.1]
  | some found =>
    cases found with
    | link =>
      rw [entry] at cacheable
      cases cacheable
    | object stamp =>
      simp only [entry, List.all_append, Bool.and_eq_true, List.all_cons, List.all_nil,
        Seen.holds] at cacheable seen
      have now : later.entry path.parts = some (.object stamp) := by
        obtain ⟨-, same, -⟩ := seen
        split at same
        · next found => rw [found, of_decide_eq_true same]
        · cases same
      refine ⟨⟨cacheable, seen.1⟩, by rw [now], ?_⟩
      rw [disk.follow_object _ _ entry, later.follow_object _ _ now]

variable {sha256 : List UInt8 → List UInt8}

omit [DecidableEq Stamp] in
private theorem childNames_eq {directory : Path} {entries : List (String × Kind)}
    (unlinked : entries.any (fun entry => entry.2 = .link) = false) :
    later.childNames directory entries = disk.childNames directory entries := by
  unfold Disk.childNames
  congr 1
  refine List.filter_congr fun entry member => ?_
  have kind := List.any_eq_false.mp unlinked entry member
  cases is : entry.2 with
  | directory => rfl
  | other => rfl
  | link => exact absurd (decide_eq_true is) kind

private theorem perform_stands (question : Question) (reads : Reads Stamp)
    (stands : (Reads.perform disk sha256 question reads).2.Stands later) : reads.Stands later ∧
      Reads.perform later sha256 question reads = Reads.perform disk sha256 question reads := by
  cases question with
  | child path =>
    obtain ⟨before, same, follows⟩ := observe_stands stands
    refine ⟨before, ?_⟩
    rw [Reads.perform, Reads.perform, same, Disk.isDir, Disk.isDir, follows]
  | subdirectories directory =>
    obtain ⟨cacheable, seen⟩ := stands
    simp only [Reads.perform, Reads.subdirectories, Reads.note, Bool.and_eq_true,
      Bool.not_eq_true'] at cacheable seen
    obtain ⟨before, same, follows⟩ := observe_stands ⟨cacheable.1, seen⟩
    refine ⟨before, ?_⟩
    simp only [Reads.perform, Reads.subdirectories]
    rw [same, follows, childNames_eq cacheable.2]
  | file path =>
    cases known : reads.files.lookup path.parts with
    | some read =>
      simp only [Reads.perform, Reads.file, known] at stands ⊢
      exact ⟨stands, rfl⟩
    | none =>
      have observed : (reads.observe disk path).Stands later := by
        simp only [Reads.perform, Reads.file, known, Reads.readFile] at stands
        split at stands <;> exact stands
      obtain ⟨before, same, follows⟩ := observe_stands observed
      refine ⟨before, ?_⟩
      simp only [Reads.perform, Reads.file, known, Reads.readFile]
      rw [same, follows]

variable {parse : String → Option Value} {project again : Path}

omit [DecidableEq Stamp] in
private theorem rawStart_parts (same : again.parts = project.parts)
    (kind : later.isDir again = disk.isDir project) :
    (rawStart later again).parts = (rawStart disk project).parts := by
  unfold rawStart Path.parent
  rw [kind, same]
  split_ifs
  · exact same
  · exact same
  · rfl

private theorem decideObserved_stands {seen : List (Seen Stamp)}
    (start : (rawStart later again).parts = (rawStart disk project).parts)
    (spelled : disk.real (rawStart disk project).parts = none →
      rawStart disk project = Path.ofParts (rawStart disk project).parts)
    (kept : (decideObserved parse sha256 disk project).2 = some seen)
    (holds : seen.all (Seen.holds later)) :
    decideProject parse sha256 later again = decideProject parse sha256 disk project := by
  unfold decideObserved at kept
  dsimp only at kept
  split_ifs at kept with cacheable
  cases kept
  rw [List.all_cons, Bool.and_eq_true] at holds
  have real := of_decide_eq_true holds.1
  have starts : startOf later again = startOf disk project := by
    unfold startOf at real ⊢
    rw [start, real]
    cases found : disk.real (rawStart disk project).parts with
    | none =>
      rw [found] at real
      exact (spelled found).symm
    | some parts => rfl
  have same : (decideFrom parse (startOf disk project)).runWith (Reads.perform later sha256)
      ⟨[], [], [], true⟩ = (decideFrom parse (startOf disk project)).runWith
        (Reads.perform disk sha256) ⟨[], [], [], true⟩ :=
    Dialogue.runWith_eq (Reads.Stands later)
      (fun question reads stands => (perform_stands question reads stands).1)
      (fun question reads stands => (perform_stands question reads stands).2) _ _
      ⟨cacheable, holds.2⟩
  unfold decideProject decideObserved
  dsimp only
  rw [starts, same]

/-- A request that finds its path a directory, or not one, as `directory` says, and that spells a
directory that cannot be resolved in full. -/
structure Steady (directory : List String → Bool) (call : Disk object × Path) : Prop where
  kind : call.1.isDir call.2 = directory call.2.parts
  spelled : call.1.real (rawStart call.1 call.2).parts = none →
    rawStart call.1 call.2 = Path.ofParts (rawStart call.1 call.2).parts

variable (object parse sha256) in
def Recorded (directory : List String → Bool) (cache : BoundaryCache Stamp) : Prop :=
  ∀ kept ∈ cache.kept, ∃ disk : Disk object, Steady directory (disk, kept.1) ∧
    decideObserved parse sha256 disk kept.1 = (kept.2.1, some kept.2.2)

private theorem decide_recorded {directory : List String → Bool} {cache : BoundaryCache Stamp}
    (recorded : Recorded object sha256 parse directory cache)
    (steady : Steady directory (later, project)) :
    (cache.decide parse sha256 later project).1 = decideProject parse sha256 later project ∧
      Recorded object sha256 parse directory (cache.decide parse sha256 later project).2 := by
  unfold BoundaryCache.decide
  split
  · next kept decision seen found =>
      obtain ⟨held, hit⟩ := Option.filter_eq_some_iff.mp found
      obtain ⟨disk, earlier, decided⟩ := recorded _ held
      rw [Bool.and_eq_true] at hit
      have same : project.parts = kept.parts := (of_decide_eq_true hit.1).symm
      have kind : later.isDir project = disk.isDir kept := by
        rw [steady.kind, earlier.kind, same]
      have fresh := decideObserved_stands (rawStart_parts same kind) earlier.spelled
        (congrArg Prod.snd decided) hit.2
      exact ⟨(fresh.trans (congrArg Prod.fst decided)).symm, recorded⟩
  · refine ⟨rfl, fun kept member => ?_⟩
    obtain ⟨witness, given, rfl⟩ := Option.map_eq_some_iff.mp member
    exact ⟨later, steady, Prod.ext rfl given⟩

private theorem run_recorded (directory : List String → Bool) (calls : List (Disk object × Path))
    (steady : ∀ call ∈ calls, Steady directory call) (cache : BoundaryCache Stamp)
    (recorded : Recorded object sha256 parse directory cache) : cache.run parse sha256 calls =
      calls.map fun call => decideProject parse sha256 call.1 call.2 := by
  induction calls generalizing cache with
  | nil => rfl
  | cons call rest ih =>
    obtain ⟨same, kept⟩ := decide_recorded recorded (steady call List.mem_cons_self)
    rw [BoundaryCache.run, List.map_cons, ← same]
    exact congrArg _ (ih (fun call member => steady call (List.mem_cons_of_mem _ member)) _ kept)

/-- Each request is answered as if nothing were kept. -/
theorem kept_boundary_is_fresh (directory : List String → Bool)
    (calls : List (Disk object × Path)) (steady : ∀ call ∈ calls, Steady directory call) :
    BoundaryCache.run parse sha256 calls ⟨none⟩ =
      calls.map fun call => decideProject parse sha256 call.1 call.2 :=
  run_recorded directory calls steady ⟨none⟩ fun _ member => nomatch member

end

section

def Disk.plain {Stamp : Type} {object : Stamp → Object} (nodes : List (List String × Stamp)) :
    Disk object where
  entry parts := (nodes.lookup parts).map .object
  follow parts := (nodes.lookup parts).map object
  real parts := (nodes.lookup parts).map fun _ => parts
  follow_object parts stamp found := by
    obtain ⟨_, held, same⟩ := Option.map_eq_some_iff.mp found
    cases same
    rw [held]
    rfl
  follow_none parts missing := by rw [Option.map_eq_none_iff.mp missing]; rfl

def sampleObject : ℕ → Object
  | 0 => .directory [("package.json", .other)]
  | 1 => .directory [("package.json", .other), ("p", .directory)]
  | 2 => .file (some "\x7b\x7d")
  | _ => .file (some "\x7b\"main\":\"x\"\x7d")

def sampleParse (text : String) : Option Value :=
  if text = "\x7b\x7d" then some (.object [])
  else if text = "\x7b\"main\":\"x\"\x7d" then some (.object [("main", .string "x")])
  else none

def bare : Disk sampleObject := .plain [(["/"], 0), (["/", "package.json"], 2)]

def filled : Disk sampleObject := .plain [(["/"], 1), (["/", "package.json"], 2),
  (["/", "p"], 0), (["/", "p", "package.json"], 3)]

def sampleProject : Path := .ofParts ["/", "p"]

theorem kept_boundary_is_fresh_twice :
    BoundaryCache.run sampleParse id [(bare, sampleProject), (bare, sampleProject)] ⟨none⟩ =
      [decideProject sampleParse id bare sampleProject,
        decideProject sampleParse id bare sampleProject] := by
  refine kept_boundary_is_fresh (fun _ => false) _ fun call member => ?_
  have is : call = (bare, sampleProject) := by simpa using member
  rw [is]
  exact ⟨rfl, fun missing => nomatch missing⟩

/-- The kept decision does not see that the project has become a directory. -/
theorem kept_boundary_misses_directory :
    (BoundaryCache.run sampleParse id [(bare, sampleProject), (filled, sampleProject)]
        ⟨none⟩).map Decision.boundary = [.closed, .closed] ∧
      (decideProject sampleParse id filled sampleProject).boundary = .opened := by
  decide

end

end SolidChecker.Backend.ProgramBoundary
