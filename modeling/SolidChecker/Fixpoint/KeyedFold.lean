/- source: solid-reactive-ir/src/base/fixpoint/fold.rs; fixpoint.rs -/

import Mathlib.Data.Prod.Lex
import Mathlib.Data.Finset.Sort
import Mathlib.Algebra.Order.Monoid.Unbundled.WithTop
import SolidChecker.Foundation.Grouping
import SolidChecker.Foundation.Table
import SolidChecker.Fixpoint.DenseIndex

namespace SolidChecker.Fixpoint

open Foundation.Grouping (sortByKey runs)
open Foundation.Table (collect)

abbrev FileId := ℕ

structure FileOrder where
  ids : List FileId

namespace FileOrder

-- collected from the list, so an id listed twice has its last position
def ranks (order : FileOrder) : Finmap fun _ : FileId => ℕ := collect order.ids.zipIdx

def rank (order : FileOrder) (id : FileId) : Option ℕ := order.ranks.lookup id

def surviving (order other : FileOrder) : List FileId :=
  order.ids.filter fun id => (other.rank id).isSome

def keepsRelativeOrder (order previous : FileOrder) : Bool :=
  decide (order.surviving previous = previous.surviving order)

def rankOrder : Option ℕ → WithBot ℕ
  | none => ⊥
  | some rank => rank

end FileOrder

/-- `key -> fold(values)`, the values being every file's rows under the key, by the file's
path rank, each file's in production order. -/
structure KeyedFold (K C V : Type*) where
  order : Option FileOrder
  rows : Finmap fun _ : FileId => List (K × C)
  postings : Finmap fun _ : K => Finset FileId
  values : Finmap fun _ : K => V

abbrev FileChange (K C : Type*) := FileId × Option (List (K × C))

variable {K C V : Type*} [LinearOrder K] [DecidableEq C] [DecidableEq V]

def nonEmpty {α : Type*} (entries : List α) : Option (List α) :=
  if entries.isEmpty then none else some entries

def grouped (rows : List (K × C)) : Finmap fun _ : K => List C :=
  rows.foldl (fun groups row =>
    groups.insert row.1 ((groups.lookup row.1).getD [] ++ [row.2])) ∅

structure Patch (K C : Type*) where
  rows : Finmap fun _ : FileId => List (K × C)
  postings : Finmap fun _ : K => Finset FileId
  delta : Finset K

namespace Patch

def unpost (patch : Patch K C) (file : FileId) (key : K) : Patch K C :=
  match patch.postings.lookup key with
  | none => patch
  | some files =>
    let files := files.erase file
    if files = ∅ then { patch with postings := patch.postings.erase key }
    else { patch with postings := patch.postings.insert key files }

def retire (file : FileId) (old new : Finmap fun _ : K => List C) (patch : Patch K C) (key : K) :
    Patch K C :=
  let patch := if new.lookup key ≠ old.lookup key then
    { patch with delta := insert key patch.delta } else patch
  if new.lookup key = none then patch.unpost file key else patch

def post (file : FileId) (old : Finmap fun _ : K => List C) (patch : Patch K C) (key : K) :
    Patch K C :=
  if old.lookup key = none then
    { patch with
      delta := insert key patch.delta
      postings := patch.postings.insert key (insert file ((patch.postings.lookup key).getD ∅)) }
  else patch

def change (patch : Patch K C) (next : FileChange K C) : Patch K C :=
  let file := next.1
  let rows := next.2.bind nonEmpty
  let old := ((patch.rows.lookup file).map grouped).getD ∅
  let new := (rows.map grouped).getD ∅
  let patch := { patch with rows := patch.rows.erase file }
  let patch := (old.keys.sort (· ≤ ·)).foldl (retire file old new) patch
  let patch := (new.keys.sort (· ≤ ·)).foldl (post file old) patch
  match rows with
  | none => patch
  | some rows => { patch with rows := patch.rows.insert file rows }

end Patch

namespace KeyedFold

def empty : KeyedFold K C V := ⟨none, ∅, ∅, ∅⟩

def valuesUnder (rows : List (K × C)) (key : K) : List C :=
  (rows.filter fun row => decide (row.1 = key)).map Prod.snd

variable (order : FileOrder) (rows : Finmap fun _ : FileId => List (K × C))

/-- The values of `key`: its files by rank, each file's in production order. The source indexes
`rows` by file, which panics for a file without rows; a posted file has some. -/
def valuesOf (postings : Finmap fun _ : K => Finset FileId) (key : K) : List C :=
  let files := ((postings.lookup key).map fun files => files.sort (· ≤ ·)).getD []
  let files := sortByKey (fun file => FileOrder.rankOrder (order.rank file)) files
  files.flatMap fun file => valuesUnder ((rows.lookup file).getD []) key

def refold (next : K → Option V) (state : Finmap (fun _ : K => V) × List K) (key : K) :
    Finmap (fun _ : K => V) × List K :=
  match next key with
  | some value =>
    (state.1.insert key value,
      if state.1.lookup key ≠ some value then state.2 ++ [key] else state.2)
  | none =>
    (state.1.erase key, if (state.1.lookup key).isSome then state.2 ++ [key] else state.2)

structure Row (K C : Type*) where
  key : K
  rank : Option ℕ
  file : FileId
  position : ℕ
  value : C

/-- What the bulk fold sorts by: key, path rank (an unlisted file first), file, position. -/
def Row.sortKey (row : Row K C) : K ×ₗ WithBot ℕ ×ₗ ℕ ×ₗ ℕ :=
  toLex (row.key, toLex (FileOrder.rankOrder row.rank, toLex (row.file, row.position)))

def rowsOf (file : FileId) : List (Row K C) :=
  ((rows.lookup file).getD []).zipIdx.map fun entry =>
    ⟨entry.1.1, order.rank file, file, entry.2, entry.1.2⟩

variable (changes : Finmap fun _ : FileId => Option (List (K × C)))

def install : Finmap fun _ : FileId => List (K × C) :=
  (changes.keys.sort (· ≤ ·)).foldl (fun rows file =>
    match ((changes.lookup file).getD none).bind nonEmpty with
    | some next => rows.insert file next
    | none => rows) rows

def keyedRun {β : Type*} (give : K → List (Row K C) → Option β) (group : List (Row K C)) :
    Option (K × β) :=
  group.head?.bind fun first => (give first.key group).map fun entry => (first.key, entry)

variable (fold : K → List C → Option V)

def foldRun : List (Row K C) → Option (K × V) :=
  keyedRun fun key group => fold key (group.map Row.value)

def postRun : List (Row K C) → Option (K × Finset FileId) :=
  keyedRun fun _ group => some (group.map Row.file).toFinset

variable (self : KeyedFold K C V)

/-- From nothing kept: the rows are sorted once and the maps built from runs of equal keys. -/
def foldAll (fresh : Bool) : KeyedFold K C V × Solved K :=
  let rows := install self.rows changes
  let all := (rows.keys.sort (· ≤ ·)).flatMap (rowsOf order rows)
  let groups := runs Row.key (sortByKey Row.sortKey all)
  let values := groups.filterMap (foldRun fold)
  (⟨some order, rows, collect (groups.filterMap postRun), collect values⟩,
    ⟨values.map Prod.fst, groups.length, fresh⟩)

/-- The changes of the files the kept rows name and the order does not list: each is gone,
whatever its change says. -/
def dropUnlisted : Finmap fun _ : FileId => Option (List (K × C)) :=
  (rows.keys.sort (· ≤ ·)).foldl (fun changes file =>
    if order.rank file = none then changes.insert file none else changes) changes

def patchFiles : Patch K C :=
  (changes.keys.sort (· ≤ ·)).foldl (fun patch file =>
    patch.change (file, (changes.lookup file).getD none)) ⟨self.rows, self.postings, ∅⟩

/-- Whether every key is refolded: on the first update, or when the files both orders list
changed relative order. -/
def foldsFresh : Bool :=
  match self.order with
  | none => true
  | some previous => !order.keepsRelativeOrder previous

def update (changes : List (FileChange K C)) (fold : K → List C → Option V) :
    KeyedFold K C V × Solved K :=
  let fresh := self.foldsFresh order
  let changes := collect changes
  if self.rows.keys = ∅ ∧ self.postings.keys = ∅ ∧ self.values.keys = ∅ then
    self.foldAll order changes fold fresh
  else
    let patch := self.patchFiles (dropUnlisted order self.rows changes)
    let delta := if fresh then patch.delta ∪ patch.postings.keys ∪ self.values.keys
      else patch.delta
    let next := fun key =>
      let values := valuesOf order patch.rows patch.postings key
      if values = [] then none else fold key values
    let (values, changed) := (delta.sort (· ≤ ·)).foldl (refold next) (self.values, [])
    (⟨some order, patch.rows, patch.postings, values⟩, ⟨changed, delta.card, fresh⟩)

def ids : List FileId := (self.order.map FileOrder.ids).getD []

structure Call (K C : Type*) where
  order : FileOrder
  changes : List (FileChange K C)

def run (calls : List (Call K C)) : KeyedFold K C V :=
  calls.foldl (fun self call => (self.update call.order call.changes fold).1) empty

end KeyedFold

end SolidChecker.Fixpoint
