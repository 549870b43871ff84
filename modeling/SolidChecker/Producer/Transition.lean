/- source: typefacts/src/producer/plan.rs, producer/encoder.rs -/

import Mathlib.Data.Finset.Sort
import Mathlib.Data.List.MinMax
import SolidChecker.Producer.Table

namespace SolidChecker.Producer

open List

inductive Slot (T : Type)
  | unchanged
  | replace (row : T)
  | remove
  deriving DecidableEq

structure PathOp (H E A : Type) where
  path : Path
  source : Slot H
  entities : Slot (List E)
  file : Slot (List A)
  deriving DecidableEq

structure Candidates where
  source : Bool
  entity : Bool
  file : Bool

def Candidates.all : Candidates := ⟨true, true, true⟩

inductive TransitionMode
  | full
  | delta
  deriving DecidableEq

inductive InvalidTransition
  | zeroTargetGeneration
  | fullWithToken
  | deltaWithoutToken
  | zeroBaseGeneration
  | targetPrecedesBase (target base : ℕ)
  | pathWithoutRows (operation : ℕ) (path : Path)
  | rebuild (text : String)
  deriving DecidableEq

inductive EncodeError
  | sparseUnavailable
  | invalid (reason : InvalidTransition)
  | sink (text : String)
  deriving DecidableEq

structure Transition (H E A : Type) where
  mode : TransitionMode
  baseGeneration : ℕ
  targetGeneration : ℕ
  baseStateToken : String
  paths : List (PathOp H E A)
  deriving DecidableEq

variable {H E A : Type}

section

variable [DecidableEq H] [DecidableEq E] [DecidableEq A]

def slotDifference {T : Type} [DecidableEq T] : Option T → Option T → Slot T
  | some _, none => .remove
  | previous, some next => if previous = some next then .unchanged else .replace next
  | none, none => .unchanged

def entitiesDifference (previous next : List E) : Slot (List E) :=
  if previous ≠ [] ∧ next = [] then .remove
  else if next ≠ [] ∧ previous ≠ next then .replace next
  else .unchanged

def rowsDifference (path : Path) (previous next : PathRows H E A) (candidates : Candidates) :
    Option (PathOp H E A) :=
  let operation : PathOp H E A :=
    { path
      source := if candidates.source then slotDifference previous.source next.source
        else .unchanged
      entities := if candidates.entity then entitiesDifference previous.entities next.entities
        else .unchanged
      file := if candidates.file then slotDifference previous.file next.file else .unchanged }
  if operation = ⟨path, .unchanged, .unchanged, .unchanged⟩ then none else some operation

def pathDifference (base : Option (ProducerTable H E A)) (target : ProducerTable H E A) (path : Path)
    (candidates : Candidates) : Option (PathOp H E A) :=
  rowsDifference path (base.elim PathRows.empty fun base => PathRows.ofTable base path)
    (PathRows.ofTable target path) candidates

end

structure PathCursor (H E A : Type) where
  sources : List (Path × H)
  entities : List (Path × List E)
  files : List (Path × List A)

namespace PathCursor

def new (table : ProducerTable H E A) : PathCursor H E A :=
  ⟨table.sources, table.entities, table.files⟩

variable (cursor : PathCursor H E A)

def heads : List Path :=
  (cursor.sources.head?.map Prod.fst).toList ++ (cursor.entities.head?.map Prod.fst).toList ++
    (cursor.files.head?.map Prod.fst).toList

def path : Option Path := cursor.heads.min?

def headAt {V : Type} (rows : List (Path × V)) (path : Path) : Option V :=
  rows.head?.bind fun row => if row.1 = path then some row.2 else none

def rows (path : Path) : PathRows H E A :=
  ⟨headAt cursor.sources path, (headAt cursor.entities path).getD [], headAt cursor.files path⟩

def advance {V : Type} (path : Path) : List (Path × V) → List (Path × V)
  | [] => []
  | row :: later => if row.1 = path then later else row :: later

def next (path : Path) : PathCursor H E A :=
  ⟨advance path cursor.sources, advance path cursor.entities, advance path cursor.files⟩

def size : ℕ :=
  cursor.sources.length + cursor.entities.length + cursor.files.length

def walk : ℕ → PathCursor H E A → List Path
  | 0, _ => []
  | fuel + 1, cursor =>
    match cursor.path with
    | none => []
    | some path => path :: walk fuel (cursor.next path)

end PathCursor

section

variable [DecidableEq H] [DecidableEq E] [DecidableEq A]

def planFullPaths (target : ProducerTable H E A) :
    List Path → List (PathOp H E A) → Except EncodeError (List (PathOp H E A))
  | [], operations => .ok operations
  | path :: later, operations =>
    match pathDifference none target path .all with
    | none => .error (.invalid (.pathWithoutRows operations.length path))
    | some operation => planFullPaths target later (operations ++ [operation])

def planFull (target : ProducerTable H E A) : Except EncodeError (List (PathOp H E A)) :=
  let cursor := PathCursor.new target
  planFullPaths target (cursor.walk cursor.size) []

def sortedManifestPaths (manifest : TransportChanges) : List Path :=
  (manifest.sourcePaths ∪ manifest.entityPaths ∪ manifest.filePaths).sort (· ≤ ·)

def planExactPathDelta (base target : ProducerTable H E A) (manifest : TransportChanges) :
    List (PathOp H E A) :=
  (sortedManifestPaths manifest).filterMap fun path =>
    pathDifference (some base) target path
      ⟨path ∈ manifest.sourcePaths, path ∈ manifest.entityPaths, path ∈ manifest.filePaths⟩

def mergeWalk : ℕ → PathCursor H E A → PathCursor H E A → List (PathOp H E A)
  | 0, _, _ => []
  | fuel + 1, previous, next =>
    let gone := fun path => (rowsDifference path (previous.rows path) .empty .all).toList ++
      mergeWalk fuel (previous.next path) next
    let come := fun path => (rowsDifference path .empty (next.rows path) .all).toList ++
      mergeWalk fuel previous (next.next path)
    match previous.path, next.path with
    | none, none => []
    | some left, none => gone left
    | none, some right => come right
    | some left, some right =>
      if left < right then gone left
      else if right < left then come right
      else (rowsDifference left (previous.rows left) (next.rows left) .all).toList ++
        mergeWalk fuel (previous.next left) (next.next left)

def planFallbackPathDelta (base target : ProducerTable H E A) : List (PathOp H E A) :=
  let previous := PathCursor.new base
  let next := PathCursor.new target
  mergeWalk (previous.size + next.size) previous next

end

variable (target : ProducerTable H E A) (manifest : TransportChanges)

def sparseOp (path : Path) : PathOp H E A :=
  let rows := PathRows.ofTable target path
  { path
    source := if path ∈ manifest.sourcePaths then rows.source.elim .remove .replace else .unchanged
    entities := if path ∈ manifest.entityPaths then
        if rows.entities = [] then .remove else .replace rows.entities
      else .unchanged
    file := if path ∈ manifest.filePaths then rows.file.elim .remove .replace else .unchanged }

def planSparsePaths :
    List (PathOp H E A) := (sortedManifestPaths manifest).map (sparseOp target manifest)

def validate (baseStateToken : String) (base : Option (ProducerTable H E A))
    (target : ProducerTable H E A) : Except EncodeError (TransitionMode × ℕ) :=
  if target.generation = 0 then .error (.invalid .zeroTargetGeneration)
  else match base with
    | none =>
      if baseStateToken ≠ "" then .error (.invalid .fullWithToken) else .ok (.full, 0)
    | some base =>
      if baseStateToken = "" then .error (.invalid .deltaWithoutToken)
      else if base.generation = 0 then .error (.invalid .zeroBaseGeneration)
      else if target.generation < base.generation then
        .error (.invalid (.targetPrecedesBase target.generation base.generation))
      else .ok (.delta, base.generation)

section

variable [DecidableEq H] [DecidableEq E] [DecidableEq A]

def planPaths (base : Option (ProducerTable H E A)) (target : ProducerTable H E A) (sparse : Bool) :
    Except EncodeError (List (PathOp H E A)) :=
  match base with
  | none => planFull target
  | some base =>
    let manifest := target.transport.filter TransportChanges.complete
    if sparse then
      match manifest with
      | none => .error .sparseUnavailable
      | some manifest => .ok (planSparsePaths target manifest)
    else match manifest.filter fun manifest => decide (base.stateId ≠ 0 ∧
        manifest.baseGeneration = base.generation ∧ manifest.baseStateId = base.stateId) with
      | some manifest => .ok (planExactPathDelta base target manifest)
      | none => .ok (planFallbackPathDelta base target)

def encode (baseStateToken : String) (base : Option (ProducerTable H E A))
    (target : ProducerTable H E A) (sparse : Bool) : Except EncodeError (Transition H E A) := do
  let (mode, baseGeneration) ← validate baseStateToken base target
  let paths ← planPaths base target sparse
  pure ⟨mode, baseGeneration, target.generation, baseStateToken, paths⟩

end

section

def Slot.row {T : Type} : Slot T → Option T → Option T
  | .unchanged, kept => kept
  | .replace row, _ => some row
  | .remove, _ => none

def Slot.rows {T : Type} : Slot (List T) → List T → List T
  | .unchanged, kept => kept
  | .replace rows, _ => rows
  | .remove, _ => []

def PathOp.apply (operation : PathOp H E A) (rows : PathRows H E A) : PathRows H E A :=
  ⟨operation.source.row rows.source, operation.entities.rows rows.entities,
    operation.file.row rows.file⟩

def applyAll (operations : List (PathOp H E A)) (rows : Path → PathRows H E A) :
    Path → PathRows H E A :=
  operations.foldl (fun rows operation =>
    Function.update rows operation.path (operation.apply (rows operation.path))) rows

def Transition.materialize (transition : Transition H E A) : Path → PathRows H E A :=
  applyAll transition.paths fun _ => PathRows.empty

end

namespace PathCursor

def allPaths (cursor : PathCursor H E A) : List Path :=
  cursor.sources.map Prod.fst ++ cursor.entities.map Prod.fst ++ cursor.files.map Prod.fst

section

variable {V : Type} (path : Path) (rows : List (Path × V))

private theorem mem_advance (other : Path) : other ∈ rows.map Prod.fst →
    other = path ∨ other ∈ (advance path rows).map Prod.fst := by
  cases rows with
  | nil => exact fun member => nomatch member
  | cons row later =>
    rw [advance]
    split
    · rename_i same
      intro member
      rcases mem_cons.mp member with rfl | inside
      · exact .inl same
      · exact .inr inside
    · exact .inr

private theorem advance_subset : advance path rows ⊆ rows := by
  cases rows with
  | nil => exact .refl _
  | cons row later =>
    rw [advance]
    split
    · exact subset_cons_self _ _
    · exact .refl _

private theorem length_advance : (advance path rows).length +
    (if (rows.head?.map Prod.fst) = some path then 1 else 0) = rows.length := by
  cases rows with
  | nil => rfl
  | cons row later => by_cases same : row.1 = path <;> simp [advance, same]

end

variable {cursor : PathCursor H E A}

private theorem path_mem_heads {path : Path}
    (head : cursor.path = some path) : path ∈ cursor.heads := min?_mem head

private theorem size_next {path : Path}
    (head : cursor.path = some path) : (cursor.next path).size < cursor.size := by
  have sources := length_advance path cursor.sources
  have entities := length_advance path cursor.entities
  have files := length_advance path cursor.files
  have member := path_mem_heads head
  simp only [heads, mem_append, Option.mem_toList] at member
  simp only [size, next]
  rcases member with (member | member) | member <;> simp only [member, if_true] at * <;> omega

private theorem heads_empty (done : cursor.path = none) : cursor.allPaths = [] := by
  have none : cursor.heads = [] := min?_eq_none_iff.mp done
  simp only [heads, append_eq_nil_iff, Option.toList_eq_nil_iff, Option.map_eq_none_iff,
    head?_eq_none_iff] at none
  simp [allPaths, none]

private theorem mem_walk (fuel : ℕ) (cursor : PathCursor H E A) (enough : cursor.size ≤ fuel)
    (path : Path) : path ∈ cursor.walk fuel ↔ path ∈ cursor.allPaths := by
  induction fuel generalizing cursor with
  | zero =>
    have empty : cursor.allPaths.length = 0 := by
      simp only [allPaths, length_append, length_map]
      simp only [size] at enough
      omega
    simp [walk, length_eq_zero_iff.mp empty]
  | succ fuel ih =>
    unfold walk
    cases head : cursor.path with
    | none => simp [heads_empty head]
    | some first =>
      have step := ih (cursor.next first) (by have := size_next head; omega)
      rw [mem_cons, step]
      simp only [allPaths, next, mem_append]
      constructor
      · rintro (rfl | (inside | inside) | inside)
        · have member := path_mem_heads head
          simp only [heads, mem_append, Option.mem_toList, Option.map_eq_some_iff] at member
          rcases member with (⟨row, found, rfl⟩ | ⟨row, found, rfl⟩) | ⟨row, found, rfl⟩
          · exact .inl (.inl (mem_map_of_mem (mem_of_head? found)))
          · exact .inl (.inr (mem_map_of_mem (mem_of_head? found)))
          · exact .inr (mem_map_of_mem (mem_of_head? found))
        · exact .inl (.inl (map_subset _ (advance_subset first _) inside))
        · exact .inl (.inr (map_subset _ (advance_subset first _) inside))
        · exact .inr (map_subset _ (advance_subset first _) inside)
      · rintro ((inside | inside) | inside)
        · exact (mem_advance first _ path inside).imp_right fun later => .inl (.inl later)
        · exact (mem_advance first _ path inside).imp_right fun later => .inl (.inr later)
        · exact (mem_advance first _ path inside).imp_right .inr

end PathCursor

variable {operations : List (PathOp H E A)}

private theorem applyAll_eq {start goal : Path → PathRows H E A}
    (leads : ∀ operation ∈ operations, operation.apply (start operation.path) = goal operation.path)
    (keeps : ∀ operation ∈ operations, operation.apply (goal operation.path) = goal operation.path)
    (others : ∀ path, (∀ operation ∈ operations, operation.path ≠ path) → start path = goal path) :
    applyAll operations start = goal := by
  -- every path holds its rows of the start or of the goal
  suffices main : ∀ rows, (∀ path, rows path = goal path ∨
      rows path = start path ∧ (start path = goal path ∨
        ∃ operation ∈ operations, operation.path = path)) → applyAll operations rows = goal by
    refine main start fun path => ?_
    by_cases named : ∃ operation ∈ operations, operation.path = path
    · exact .inr ⟨rfl, .inr named⟩
    · exact .inl (others path fun operation member same => named ⟨operation, member, same⟩)
  clear others
  induction operations with
  | nil =>
    intro rows between
    funext path
    rcases between path with done | ⟨same, done | ⟨operation, member, -⟩⟩
    · exact done
    · exact same.trans done
    · exact nomatch member
  | cons operation later ih =>
    intro rows between
    show applyAll later (Function.update rows operation.path
      (operation.apply (rows operation.path))) = goal
    have arrived : operation.apply (rows operation.path) = goal operation.path := by
      rcases between operation.path with done | ⟨same, -⟩
      · rw [done, keeps operation mem_cons_self]
      · rw [same, leads operation mem_cons_self]
    refine ih (fun other member => leads other (mem_cons_of_mem _ member))
      (fun other member => keeps other (mem_cons_of_mem _ member)) _ fun path => ?_
    by_cases here : path = operation.path
    · subst here
      exact .inl (by rw [Function.update_self, arrived])
    · rw [Function.update_of_ne here]
      refine (between path).imp_right fun ⟨same, reason⟩ => ⟨same, reason.imp_right ?_⟩
      rintro ⟨other, member, named⟩
      rcases mem_cons.mp member with rfl | inside
      · exact absurd named.symm here
      · exact ⟨other, inside, named⟩

section

variable [DecidableEq H] [DecidableEq E] [DecidableEq A]

private theorem planFullPaths_ok (target : ProducerTable H E A) (paths : List Path)
    (before operations : List (PathOp H E A))
    (planned : planFullPaths target paths before = .ok operations) :
    ∃ news, operations = before ++ news ∧ news.map PathOp.path = paths ∧
      ∀ operation ∈ news, pathDifference none target operation.path .all = some operation := by
  induction paths generalizing before with
  | nil =>
    cases planned
    exact ⟨[], by simp, rfl, by simp⟩
  | cons path later ih =>
    unfold planFullPaths at planned
    cases difference : pathDifference none target path .all with
    | none => simp [difference] at planned
    | some operation =>
      simp only [difference] at planned
      obtain ⟨news, joined, named, made⟩ := ih _ planned
      have same : operation.path = path := by
        unfold pathDifference rowsDifference at difference
        simp only [Option.ite_none_left_eq_some, Option.some.injEq] at difference
        rw [← difference.2]
      refine ⟨operation :: news, by simp [joined], by simp [named, same], ?_⟩
      exact forall_mem_cons.mpr ⟨by rw [same, difference], made⟩

private theorem slotDifference_row {T : Type} [DecidableEq T] (row : Option T) :
    (slotDifference none row).row none = row ∧ (slotDifference none row).row row = row := by
  cases row <;> simp [slotDifference, Slot.row]

private theorem entitiesDifference_rows (rows : List E) :
    (entitiesDifference [] rows).rows [] = rows ∧ (entitiesDifference [] rows).rows rows = rows := by
  by_cases empty : rows = []
  · simp [entitiesDifference, Slot.rows, empty]
  · simp [entitiesDifference, Slot.rows, empty, Ne.symm empty]

variable {target : ProducerTable H E A}

private theorem pathDifference_apply {path : Path}
    {operation : PathOp H E A} (made : pathDifference none target path .all = some operation) :
    operation.apply PathRows.empty = PathRows.ofTable target path ∧
      operation.apply (PathRows.ofTable target path) = PathRows.ofTable target path := by
  unfold pathDifference rowsDifference at made
  simp only [Option.ite_none_left_eq_some, Option.some.injEq] at made
  rw [← made.2]
  simp only [PathOp.apply, PathRows.empty, Candidates.all, Option.elim_none, if_true]
  have source := slotDifference_row (PathRows.ofTable target path).source
  have entities := entitiesDifference_rows (PathRows.ofTable target path).entities
  have file := slotDifference_row (PathRows.ofTable target path).file
  rw [source.1, source.2, entities.1, entities.2, file.1, file.2]
  exact ⟨rfl, rfl⟩

omit [DecidableEq H] [DecidableEq E] [DecidableEq A] in
private theorem ofTable_eq_empty {table : ProducerTable H E A} {path : Path}
    (absent : path ∉ (PathCursor.new table).allPaths) :
    PathRows.ofTable table path = PathRows.empty := by
  have missing : ∀ {V : Type} (rows : List (Path × V)), path ∉ rows.map Prod.fst →
      rowAt rows path = none := fun rows absent =>
    Option.eq_none_iff_forall_ne_some.mpr fun value found =>
      absent (mem_map_of_mem (mem_of_rowAt found))
  simp only [PathCursor.allPaths, PathCursor.new, mem_append, not_or] at absent
  simp [PathRows.ofTable, PathRows.empty, missing _ absent.1.1, missing _ absent.1.2,
    missing _ absent.2]

theorem planFull_rows (planned : planFull target = .ok operations) :
    applyAll operations (fun _ => PathRows.empty) = target.rows := by
  obtain ⟨news, rfl, named, made⟩ := planFullPaths_ok target _ [] operations planned
  refine applyAll_eq (fun operation member => (pathDifference_apply (made operation member)).1)
    (fun operation member => (pathDifference_apply (made operation member)).2) fun path absent => ?_
  refine (ofTable_eq_empty fun present => ?_).symm
  rw [← PathCursor.mem_walk _ _ le_rfl, ← named, mem_map] at present
  obtain ⟨operation, member, same⟩ := present
  exact absent operation member same

end

private theorem sparse_row {T : Type} (named : Prop) [Decidable named] (row kept : Option T) :
    (if named then row.elim Slot.remove Slot.replace else Slot.unchanged).row kept =
      if named then row else kept := by
  split
  · cases row <;> rfl
  · rfl

private theorem sparse_rows (named : Prop) [Decidable named] (rows kept : List E) :
    (if named then if rows = [] then Slot.remove else Slot.replace rows
      else Slot.unchanged).rows kept = if named then rows else kept := by
  split
  · cases rows <;> rfl
  · rfl

theorem planSparsePaths_rows (base : Path → PathRows H E A) :
    applyAll (planSparsePaths target manifest) base = fun path =>
      ⟨if path ∈ manifest.sourcePaths then (target.rows path).source else (base path).source,
        if path ∈ manifest.entityPaths then (target.rows path).entities else (base path).entities,
        if path ∈ manifest.filePaths then (target.rows path).file else (base path).file⟩ := by
  have applied : ∀ path rows, (sparseOp target manifest path).apply rows =
      ⟨if path ∈ manifest.sourcePaths then (target.rows path).source else rows.source,
        if path ∈ manifest.entityPaths then (target.rows path).entities else rows.entities,
        if path ∈ manifest.filePaths then (target.rows path).file else rows.file⟩ := by
    intro path rows
    simp only [PathOp.apply, sparseOp, sparse_row, sparse_rows, ProducerTable.rows]
  refine applyAll_eq ?_ ?_ fun path absent => ?_
  · intro operation member
    obtain ⟨path, -, rfl⟩ := mem_map.mp member
    exact applied path _
  · intro operation member
    obtain ⟨path, -, rfl⟩ := mem_map.mp member
    rw [applied]
    simp only [sparseOp, PathRows.mk.injEq]
    refine ⟨?_, ?_, ?_⟩ <;> split <;> simp [*]
  · have outside : path ∉ manifest.sourcePaths ∪ manifest.entityPaths ∪ manifest.filePaths := by
      intro member
      refine absent (sparseOp target manifest path) (mem_map_of_mem ?_) rfl
      exact (Finset.mem_sort _).mpr member
    simp only [Finset.mem_union, not_or] at outside
    simp [outside.1.1, outside.1.2, outside.2]

end SolidChecker.Producer
