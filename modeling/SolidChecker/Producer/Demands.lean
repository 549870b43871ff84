/- source: apps/solid-typefacts/src/demands.rs -/

import Mathlib.Data.Finset.Sort
import Mathlib.Data.Prod.Lex
import SolidChecker.Foundation.Grouping
import SolidChecker.Producer.Path

namespace SolidChecker.Producer

open Foundation List

structure Location where
  path : Path
  startByte : ℕ
  endByte : ℕ
  deriving DecidableEq

structure EntityDemand (K : Type) where
  location : Location
  queryLocation : Option Location
  wantsAsync : Bool
  kinds : K
  deriving DecidableEq

structure CompactDemands (C : Type) where
  groups : List (ℕ × C)
  strings : List Path

structure Codec (K C : Type) where
  shape : C → Except String Unit
  expand : List Path → ℕ × C → Except String (List (EntityDemand K))
  asyncRows : List Path → ℕ × C → Except String (List (EntityDemand K))

inductive DemandBody (K C : Type)
  | plain (demands : List (EntityDemand K))
  | compact (strings : List Path) (group : ℕ × C)

structure DemandGroup (K C : Type) where
  path : Path
  body : DemandBody K C

def Location.clean (location : Location) : Location := { location with path := location.path.clean }

variable {K C : Type}

def canonicalizeDemandRun (path : Path) (demands : List (EntityDemand K)) : List (EntityDemand K) :=
  demands.map fun demand => { demand with
    location := { demand.location with path }
    queryLocation := demand.queryLocation.map Location.clean }

namespace DemandGroup

def expanded (codec : Codec K C) (group : DemandGroup K C) : Except String (List (EntityDemand K)) :=
  match group.body with
  | .plain demands => .ok demands
  | .compact strings packed => (codec.expand strings packed).map (canonicalizeDemandRun group.path)

def asyncLocations (codec : Codec K C) (group : DemandGroup K C) : Except String (List Location) :=
  let demands : Except String (List (EntityDemand K)) := match group.body with
    | .plain demands => .ok (demands.filter EntityDemand.wantsAsync)
    | .compact strings packed =>
      (codec.asyncRows strings packed).map (canonicalizeDemandRun group.path)
  demands.map fun demands =>
    (demands.filter EntityDemand.wantsAsync).map fun demand => demand.location.clean

end DemandGroup

def EntityDemand.span (demand : EntityDemand K) : ℕ ×ₗ ℕ :=
  toLex (demand.location.startByte, demand.location.endByte)

def orderedRun : List (EntityDemand K) → Bool
  | [] => true
  | [_] => true
  | first :: second :: later => decide (first.span ≤ second.span) && orderedRun (second :: later)

def canonicalDemandRun (demands : List (EntityDemand K)) : List (EntityDemand K) :=
  let cleaned := demands.map fun demand => { demand with
    location := demand.location.clean
    queryLocation := demand.queryLocation.map Location.clean }
  if orderedRun cleaned then cleaned else Grouping.sortByKey EntityDemand.span cleaned

def strictlyAscending : List Path → Bool
  | [] => true
  | [_] => true
  | first :: second :: later => decide (first < second) && strictlyAscending (second :: later)

/-- The runs of a demand list by clean path: as they stand if they ascend, else collected. -/
def sessionChangedDemandRuns (changes : List (EntityDemand K)) :
    List (Path × List (EntityDemand K)) :=
  let path := fun demand : EntityDemand K => demand.location.path.clean
  let named := fun run : List (EntityDemand K) => run.head?.map fun demand => (path demand, run)
  let runs := (Grouping.runs path changes).filterMap named
  if strictlyAscending (runs.map Prod.fst) then runs
  else (Grouping.runs path (Grouping.sortByKey path changes)).filterMap named

inductive DemandUndo (K C : Type)
  | replace (index : ℕ) (previous : DemandGroup K C)
  | insert (index : ℕ)
  | remove (index : ℕ) (previous : DemandGroup K C)

/-- An edit in flight: the candidate groups, and how to restore the preceding ones. -/
structure DemandTransaction (K C : Type) where
  groups : List (DemandGroup K C)
  undo : List (DemandUndo K C)
  changedPaths : List Path
  resetOld : Option (List (DemandGroup K C))

namespace DemandTransaction

def place (groups : List (DemandGroup K C)) (path : Path) : ℕ :=
  (groups.takeWhile fun group => decide (group.path < path)).length

variable (transaction : DemandTransaction K C)

def replace (group : DemandGroup K C) :
    DemandTransaction K C :=
  let index := place transaction.groups group.path
  match transaction.groups[index]? with
  | some previous =>
    if previous.path = group.path then
      { transaction with
        groups := transaction.groups.set index group
        undo := .replace index previous :: transaction.undo }
    else
      { transaction with
        groups := transaction.groups.insertIdx index group
        undo := .insert index :: transaction.undo }
  | none =>
    { transaction with
      groups := transaction.groups.insertIdx index group
      undo := .insert index :: transaction.undo }

def remove (path : Path) : DemandTransaction K C :=
  let index := place transaction.groups path
  match transaction.groups[index]? with
  | some previous =>
    if previous.path = path then
      { transaction with
        groups := transaction.groups.eraseIdx index
        undo := .remove index previous :: transaction.undo }
    else transaction
  | none => transaction

def undoStep (groups : List (DemandGroup K C)) : DemandUndo K C → List (DemandGroup K C)
  | .replace index previous => groups.set index previous
  | .insert index => groups.eraseIdx index
  | .remove index previous => groups.insertIdx index previous

def rollback : List (DemandGroup K C) :=
  match transaction.resetOld with
  | some old => old
  | none => transaction.undo.foldl undoStep transaction.groups

end DemandTransaction

/-- Replaces the runs, then drops the removed paths; a reset starts from no groups. -/
def beginRuns (groups : List (DemandGroup K C)) (changedRuns : List (DemandGroup K C))
    (removed : List Path) (reset : Bool) : DemandTransaction K C :=
  let changedPaths := changedRuns.map DemandGroup.path ++ removed.map Path.clean
  let transaction : DemandTransaction K C :=
    { groups := if reset then [] else groups
      undo := []
      changedPaths := changedPaths.toFinset.sort (· ≤ ·)
      resetOld := if reset then some groups else none }
  (removed.map Path.clean).foldl DemandTransaction.remove
    (changedRuns.foldl DemandTransaction.replace transaction)

def beginPlain (groups : List (DemandGroup K C)) (changes : List (EntityDemand K))
    (removed : List Path) (reset : Bool) : DemandTransaction K C :=
  let changedRuns := (sessionChangedDemandRuns changes).map fun run =>
    ⟨run.1.clean, .plain (canonicalDemandRun run.2)⟩
  beginRuns groups changedRuns removed reset

def compactRun (codec : Codec K C) (strings : List Path) (group : ℕ × C) :
    Except String (DemandGroup K C) :=
  match strings[group.1]? with
  | none => .error ("compact string index " ++ toString group.1 ++ " out of range (" ++
      toString strings.length ++ " strings)")
  | some path => (codec.shape group.2).map fun _ => ⟨path.clean, .compact strings group⟩

variable {codec : Codec K C}

theorem compactRun_of_found {strings : List Path} {group : ℕ × C} {path : Path}
    (found : strings[group.1]? = some path) : compactRun codec strings group =
      (codec.shape group.2).map fun _ => ⟨path.clean, .compact strings group⟩ := by
  unfold compactRun
  rw [found]

def namedTwice : List (DemandGroup K C) → Option Path
  | [] => none
  | [_] => none
  | first :: second :: later =>
    if first.path = second.path then some second.path else namedTwice (second :: later)

theorem groups_ascend {groups : List (DemandGroup K C)}
    (sorted : groups.Pairwise fun left right => left.path ≤ right.path)
    (once : namedTwice groups = none) : (groups.map DemandGroup.path).Pairwise (· < ·) := by
  rw [pairwise_map]
  induction groups with
  | nil => exact .nil
  | cons first later ih =>
    obtain ⟨below, rest⟩ := pairwise_cons.mp sorted
    cases later with
    | nil => exact pairwise_singleton _ _
    | cons second later =>
      rw [namedTwice] at once
      split at once
      · exact nomatch once
      · rename_i differ
        have ascend := ih rest once
        refine pairwise_cons.mpr ⟨fun other member => ?_, ascend⟩
        have head : first.path < second.path :=
          lt_of_le_of_ne (below second mem_cons_self) differ
        rcases mem_cons.mp member with rfl | member
        · exact head
        · exact head.trans ((pairwise_cons.mp ascend).1 other member)

def beginCompact (codec : Codec K C) (groups : List (DemandGroup K C)) (compact : CompactDemands C)
    (removed : List Path) (reset : Bool) : Except String (DemandTransaction K C) := do
  let changedRuns ← compact.groups.mapM (compactRun codec compact.strings)
  let changedRuns := Grouping.sortByKey DemandGroup.path changedRuns
  match namedTwice changedRuns with
  | some path => .error ("compact demand groups name " ++ path.quote ++
      " twice; each path may appear once")
  | none => .ok (beginRuns groups changedRuns removed reset)

theorem beginCompact_of_runs {groups runs : List (DemandGroup K C)}
    {compact : CompactDemands C} {removed : List Path} {reset : Bool}
    (made : compact.groups.mapM (compactRun codec compact.strings) = .ok runs) :
    beginCompact codec groups compact removed reset =
      match namedTwice (Grouping.sortByKey DemandGroup.path runs) with
      | some path => .error ("compact demand groups name " ++ path.quote ++
          " twice; each path may appear once")
      | none => .ok (beginRuns groups (Grouping.sortByKey DemandGroup.path runs) removed reset) := by
  unfold beginCompact
  rw [made]
  rfl

end SolidChecker.Producer
