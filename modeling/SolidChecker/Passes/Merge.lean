/- source: apps/solid-typefacts/src/passes.rs -/

import SolidChecker.Foundation.Rows
import SolidChecker.Producer.PerFile

namespace SolidChecker.Passes

open Foundation
open Producer (WorkId)

structure Row (S D : Type) where
  found : Bool
  aliasTarget : S
  declarations : D
  canonical : S
  deriving DecidableEq

variable {S Q D : Type} [LinearOrder S]

structure PassOutput (S Q D : Type) [LinearOrder S] where
  rows : Rows (Prod.fst : S × Row S D → S)
  keys : Rows (Prod.fst : S × Q → S)

def PassOutput.row (output : PassOutput S Q D) (id : S) : Option (Row S D) :=
  (output.rows.get id).map Prod.snd

def PassOutput.key (output : PassOutput S Q D) (id : S) : Option Q :=
  (output.keys.get id).map Prod.snd

structure Merged (S Q : Type) where
  works : List WorkId
  outputs : List ℕ
  keys : Finmap fun _ : S => Q × ℕ
  providers : Finmap fun _ : S => List ℕ
  canonicalIndex : Option (Finmap fun _ : S => Multiset S)

structure MergeUpdate (S : Type) where
  full : Bool
  changed : List (ℕ × Option ℕ × ℕ)
  changedRows : Option (List S)

namespace Merged

def new : Merged S Q := ⟨[], [], ∅, ∅, none⟩

def position (place : ℕ) : ℕ := min place (2 ^ 32 - 1)

variable (heap : ℕ → PassOutput S Q D)

def row (merged : Merged S Q) (id : S) : Option (Row S D) := do
  let positions ← merged.providers.lookup id
  let first ← positions.head?
  let output ← merged.outputs[first]?
  (heap output).row id

section

theorem ids_trans : IsTrans S (· ≤ ·) := inferInstance

theorem ids_antisymm : Std.Antisymm fun first second : S => first ≤ second := inferInstance

abbrev inOrder (ids : Finset S) : List S :=
  @Finset.sort S ids (· ≤ ·) _ ids_trans ids_antisymm _

variable (index : Finmap fun _ : S => Multiset S)

def push (canonical id : S) : Finmap fun _ : S => Multiset S :=
  index.insert canonical (id ::ₘ (index.lookup canonical).getD 0)

def canonicalIndexOfRows (merged : Merged S Q) : Finmap fun _ : S => Multiset S :=
  (inOrder merged.providers.keys).foldl (fun index id =>
    match merged.row heap id with
    | some row => push index row.canonical id
    | none => index) ∅

def unfile (id : S) : Option S →
    Finmap fun _ : S => Multiset S
  | none => index
  | some canonical =>
    match index.lookup canonical with
    | none => index
    | some ids => if ids.erase id = 0 then index.erase canonical
        else index.insert canonical (ids.erase id)

def reindex (id : S) (before after : Option S) : Finmap fun _ : S => Multiset S :=
  if before = after then index
  else
    match after with
    | none => unfile index id before
    | some canonical => push (unfile index id before) canonical id

/-- The ids whose row names a canonical id of the set; the index is built by the first question. -/
def idsWithCanonical (merged : Merged S Q) (canonical : Finset S) : Multiset S × Merged S Q :=
  let index := merged.canonicalIndex.getD (merged.canonicalIndexOfRows heap)
  (∑ id ∈ canonical, (index.lookup id).getD 0, { merged with canonicalIndex := some index })

def idsWithCanonicalScan (merged : Merged S Q) (canonical : Finset S) : Finset S :=
  merged.providers.keys.filter fun id =>
    (merged.row heap id).any fun row => decide (row.canonical ∈ canonical)

end

section

def dropKey : Option (Q × ℕ) → Option (Q × ℕ)
  | none => none
  | some (key, count) =>
    let count := (count + (2 ^ 32 - 1)) % 2 ^ 32
    if count = 0 then none else some (key, count)

def leaveKeys (keys : Finmap fun _ : S => Q × ℕ) (old : PassOutput S Q D) :
    Finmap fun _ : S => Q × ℕ :=
  old.keys.list.foldl (fun keys minted =>
    Table.put keys minted.1 (dropKey (keys.lookup minted.1))) keys

def dropPosition (place : ℕ) : Option (List ℕ) → Option (List ℕ)
  | none => none
  | some positions =>
    let positions := positions.filter fun held => decide (held ≠ place)
    if positions = [] then none else some positions

def leaveProviders (providers : Finmap fun _ : S => List ℕ) (place : ℕ) (old : PassOutput S Q D) :
    Finmap fun _ : S => List ℕ :=
  old.rows.list.foldl (fun providers entry =>
    Table.put providers entry.1 (dropPosition place (providers.lookup entry.1))) providers

variable [DecidableEq Q]

def enterKey (keys : Finmap fun _ : S => Q × ℕ) (minted : S × Q) :
    Except S (Finmap fun _ : S => Q × ℕ) :=
  match keys.lookup minted.1 with
  | none => .ok (keys.insert minted.1 (minted.2, 1))
  | some (key, count) =>
    if key ≠ minted.2 then .error minted.1
    else .ok (keys.insert minted.1 (key, (count + 1) % 2 ^ 32))

def enterKeys (keys : Finmap fun _ : S => Q × ℕ) (output : PassOutput S Q D) :
    Except S (Finmap fun _ : S => Q × ℕ) :=
  output.keys.list.foldlM enterKey keys

def addPosition (place : ℕ) (positions : Option (List ℕ)) : List ℕ :=
  let positions := positions.getD []
  if place ∈ positions then positions else positions.orderedInsert (· ≤ ·) place

def enterProviders (providers : Finmap fun _ : S => List ℕ) (place : ℕ)
    (output : PassOutput S Q D) : Finmap fun _ : S => List ℕ :=
  output.rows.list.foldl (fun providers entry =>
    Table.put providers entry.1 (some (addPosition place (providers.lookup entry.1)))) providers

def changedPlaces (held outputs : List ℕ) : List (ℕ × Option ℕ × ℕ) :=
  outputs.zipIdx.filterMap fun (output, place) =>
    if held[place]? = some output then none else some (place, held[place]?, output)

abbrev Working (S Q : Type) :=
  (Finmap fun _ : S => Q × ℕ) × (Finmap fun _ : S => List ℕ)

omit [DecidableEq Q] in
def leavePlace (working : Working S Q) (change : ℕ × Option ℕ × ℕ) : Working S Q :=
  match change.2.1 with
  | none => working
  | some old => (leaveKeys working.1 (heap old),
      leaveProviders working.2 (position change.1) (heap old))

def enterPlace (working : Working S Q) (change : ℕ × Option ℕ × ℕ) : Except S (Working S Q) :=
  (enterKeys working.1 (heap change.2.2)).map fun keys =>
    (keys, enterProviders working.2 (position change.1) (heap change.2.2))

def candidates (changed : List (ℕ × Option ℕ × ℕ)) : List S :=
  inOrder (changed.flatMap fun change =>
    (change.2.1.toList.flatMap fun old => (heap old).rows.keys) ++
      (heap change.2.2).rows.keys).toFinset

variable [DecidableEq D]

def moved (before after : Merged S Q) (candidates : List S) : List (S × Option (Row S D)) :=
  (candidates.map fun id => (id, before.row heap id)).filter fun entry =>
    decide (after.row heap entry.1 ≠ entry.2)

def moveIndex (after : Merged S Q) (moved : List (S × Option (Row S D)))
    (index : Finmap fun _ : S => Multiset S) : Finmap fun _ : S => Multiset S :=
  moved.foldl (fun index entry => reindex index entry.1 (entry.2.map Row.canonical)
    ((after.row heap entry.1).map Row.canonical)) index

/-- Every changed position leaves before any enters; another work list starts the merge over. -/
def update (merged : Merged S Q) (works : List WorkId) (outputs : List ℕ) :
    Except S (MergeUpdate S × Merged S Q) := do
  let full := decide (merged.works ≠ works)
  let started : Merged S Q := if full then { new with works := merged.works } else merged
  let changed := changedPlaces started.outputs outputs
  let left := changed.foldl (leavePlace heap) (started.keys, started.providers)
  let (keys, providers) ← changed.foldlM (enterPlace heap) left
  let after : Merged S Q := ⟨works, outputs, keys, providers, started.canonicalIndex⟩
  let moved := moved heap started after (candidates heap changed)
  if full then pure (⟨full, changed, none⟩, after)
  else pure (⟨full, changed, some (moved.map Prod.fst)⟩,
    { after with canonicalIndex := after.canonicalIndex.map (moveIndex heap after moved) })

end

end Merged

end SolidChecker.Passes
