/- source: typefacts/src/producer/table.rs, producer/manifest.rs -/

import Mathlib.Data.Finset.Image
import SolidChecker.Producer.Path

namespace SolidChecker.Producer

structure TransportChanges where
  baseGeneration : ℕ
  baseStateId : ℕ
  sourcePaths : Finset Path
  entityPaths : Finset Path
  filePaths : Finset Path
  complete : Bool
  deriving DecidableEq

/-- A fact table: source digests, one non-empty run of entity rows for each path that has some, and
the async facts of each file. -/
structure ProducerTable (H E A : Type) where
  generation : ℕ
  stateId : ℕ
  sources : List (Path × H)
  entities : List (Path × List E)
  files : List (Path × List A)
  transport : Option TransportChanges
  deriving DecidableEq

structure PathRows (H E A : Type) where
  source : Option H
  entities : List E
  file : Option (List A)
  deriving DecidableEq

variable {H E A : Type}

def rowAt {V : Type} (rows : List (Path × V)) (path : Path) : Option V :=
  match rows.dropWhile fun row => decide (row.1 < path) with
  | row :: _ => if row.1 = path then some row.2 else none
  | [] => none

namespace PathRows

def empty : PathRows H E A := ⟨none, [], none⟩

def ofTable (table : ProducerTable H E A) (path : Path) : PathRows H E A :=
  ⟨rowAt table.sources path, (rowAt table.entities path).getD [], rowAt table.files path⟩

end PathRows

namespace ProducerTable

def rows (table : ProducerTable H E A) : Path → PathRows H E A := PathRows.ofTable table

def released (table : ProducerTable H E A) : ProducerTable H E A :=
  { table with sources := [], entities := [], files := [] }

end ProducerTable

def rustOwnedTransportManifest (previous : Option (ProducerTable H E A))
    (changedPaths : Finset Path) : Option TransportChanges :=
  previous.map fun previous =>
    let paths := changedPaths.image Path.clean
    ⟨previous.generation, previous.stateId, paths, paths, paths, true⟩

section

variable {V : Type} {rows : List (Path × V)} {path : Path}

theorem mem_of_rowAt {value : V} (found : rowAt rows path = some value) : (path, value) ∈ rows := by
  unfold rowAt at found
  split at found
  · rename_i row later dropped
    split at found
    · rename_i same
      cases found
      have member : row ∈ rows.dropWhile fun row => row.1 < path := by simp [dropped]
      have inside : row ∈ rows := (List.dropWhile_suffix _).subset member
      rwa [← same]
    · exact nomatch found
  · exact nomatch found

theorem rowAt_eq_some_iff (ordered : rows.Pairwise fun left right => left.1 < right.1) (value : V) :
    rowAt rows path = some value ↔ (path, value) ∈ rows := by
  refine ⟨mem_of_rowAt, fun member => ?_⟩
  induction rows with
  | nil => exact nomatch member
  | cons first later ih =>
    obtain ⟨below, rest⟩ := List.pairwise_cons.mp ordered
    rcases List.mem_cons.mp member with rfl | later_member
    · simp [rowAt]
    · have before : first.1 < path := below (path, value) later_member
      rw [rowAt, List.dropWhile_cons_of_pos (by simpa using before)]
      exact ih rest later_member

theorem rowAt_head (row : Path × V) (later : List (Path × V)) :
    rowAt (row :: later) row.1 = some row.2 := by
  simp [rowAt]

end

end SolidChecker.Producer
