/- source: apps/solid-typefacts/src/completion.rs, per_file.rs, contributions.rs -/

import Mathlib.Algebra.Group.Nat.Defs
import Mathlib.Data.Finset.Basic

namespace SolidChecker.Passes.Completion

inductive SymbolClaim where
  | absent
  | unresolved
  | partly
  | covering
deriving DecidableEq

inductive Field where
  | callability
  | constructability
  | runtimeValueDomain
  | primitiveValueDomain
  | primitiveLiteralCandidates
  | callResultDomain
  | constantValue
  | arrayShape
  | tupleShape
  | libraryTypes
  | declaredKeys
  | runtimeIdentity
  | runtimeBindingKind

structure ResolvedCall (B C : Type) where
  defaultLibraryBinding : Option B
  rest : C

/-- An entity at a location, with type descriptors by their shared address. A field of `fields` that
is absent or empty is `none`. -/
@[ext]
structure EntityFact (L D B C S V : Type) where
  location : L
  symbol : String
  symbolClaim : SymbolClaim
  typeDescriptor : Option D
  resolvedCall : Option (ResolvedCall B C)
  referenceSpace : Option S
  writableOptionalProperty : Bool
  fields : Field → Option V

structure Deferrals (count : ℕ) where
  spaces : List (Fin count × String)
  library : List (Fin count × String)
  structural : Finset String
  sized : count ≤ 2 ^ 32

variable {L D B C S V : Type}

namespace EntityFact

def blank (location : L) : EntityFact L D B C S V :=
  ⟨location, "", .absent, none, none, none, false, fun _ => none⟩

def merge (target entity : EntityFact L D B C S V) : EntityFact L D B C S V where
  location := target.location
  symbol := if entity.symbol ≠ "" then entity.symbol else target.symbol
  symbolClaim :=
    if entity.symbol ≠ "" then
      if entity.symbolClaim = .covering then .covering else .partly
    else if entity.symbolClaim = .unresolved ∧ target.symbol = "" then .unresolved
    else target.symbolClaim
  typeDescriptor := entity.typeDescriptor.or target.typeDescriptor
  resolvedCall := entity.resolvedCall.or target.resolvedCall
  referenceSpace := entity.referenceSpace.or target.referenceSpace
  writableOptionalProperty := entity.writableOptionalProperty || target.writableOptionalProperty
  fields field := (entity.fields field).or (target.fields field)

end EntityFact

open EntityFact List

abbrev Placed (L D B C S V : Type) := EntityFact L D B C S V × ℕ

abbrev Group (L D B C S V : Type) := Placed L D B C S V × List (Placed L D B C S V)

def Group.members (group : Group L D B C S V) : List (Placed L D B C S V) := group.1 :: group.2

section

variable [DecidableEq L]

def groups : List (Placed L D B C S V) → List (Group L D B C S V)
  | [] => []
  | first :: later =>
    match groups later with
    | [] => [(first, [])]
    | (next, group) :: rest =>
      if first.1.location = next.1.location then (first, next :: group) :: rest
      else (first, []) :: (next, group) :: rest

def rowOf (group : Group L D B C S V) : EntityFact L D B C S V :=
  group.members.foldl (fun target entity => target.merge entity.1) (blank group.1.1.location)

inductive PrepareFault (L : Type) where
  | count (returned demanded : ℕ)
  | location (index : ℕ) (found demanded : L)

def prepareRows (demands : List L) (result : List (EntityFact L D B C S V)) :
    Except (PrepareFault L) (List (EntityFact L D B C S V)) :=
  if result.length ≠ demands.length then .error (.count result.length demands.length)
  else
    match ((result.map EntityFact.location).zip demands).zipIdx.find? fun entry =>
        decide (entry.1.1 ≠ entry.1.2) with
    | some ((location, demand), index) => .error (.location index location demand)
    | none => .ok ((groups result.zipIdx).map rowOf)

section

variable (space : String → S) (written structural : String → Bool)

def withSpace (value : S) (entity : EntityFact L D B C S V) : EntityFact L D B C S V :=
  { entity with referenceSpace := some value }

def withdraw (call : ResolvedCall B C) : ResolvedCall B C :=
  { call with defaultLibraryBinding := none }

def withdrawCall (withdrawn : Bool) (entity : EntityFact L D B C S V) : EntityFact L D B C S V :=
  if withdrawn then { entity with resolvedCall := entity.resolvedCall.map withdraw } else entity

/-- An entity that a structural accessor of the batch, none of its own run, takes the descriptor
from. -/
def suppressed (own : Finset String) (symbol : String) : Bool :=
  decide (symbol ≠ "") && structural symbol && decide (symbol ∉ own)

def completeDeferred (entities : List (EntityFact L D B C S V))
    (deferrals : Deferrals entities.length) : List (EntityFact L D B C S V) :=
  let spaced := deferrals.spaces.foldl (fun entities deferral =>
    entities.modify deferral.1 (withSpace (space deferral.2))) entities
  let withdrawn := deferrals.library.foldl (fun entities deferral =>
    entities.modify deferral.1 (withdrawCall (written deferral.2))) spaced
  withdrawn.map fun entity =>
    if entity.typeDescriptor.isSome && suppressed structural deferrals.structural entity.symbol then
      { entity with typeDescriptor := none }
    else entity

end

structure Patches (D B C : Type) where
  spaces : List (Option ℕ × String)
  library : List (Option ℕ × String)
  calls : List (ℕ × ResolvedCall B C)
  descriptors : List (ℕ × List (D × Option String))

namespace Patches

section

variable (entities : List (EntityFact L D B C S V)) (deferrals : Deferrals entities.length)

def rowNumber (row : ℕ) : ℕ := min row (2 ^ 32 - 1)

def holderAt (holds : Placed L D B C S V → Bool) (place : ℕ) :
    Option (ℕ × Placed L D B C S V) :=
  ((groups entities.zipIdx).zipIdx.find? fun group =>
    group.1.members.any fun entity => decide (entity.2 = place)).bind fun found =>
      (groups entities.zipIdx)[rowNumber found.2]?.bind fun group =>
        (group.members.reverse.find? holds).map fun holder => (rowNumber found.2, holder)

def heldRow (holds : Placed L D B C S V → Bool) (place : ℕ) : Option ℕ :=
  (holderAt entities holds place).bind fun (row, holder) =>
    if holder.2 = place then some row else none

def isDeferred (place : ℕ) : Bool :=
  deferrals.spaces.any fun deferral => decide (deferral.1.val = place)

def holdsSpace (entity : Placed L D B C S V) : Bool :=
  entity.1.referenceSpace.isSome || isDeferred entities deferrals entity.2

def holdsCall (entity : Placed L D B C S V) : Bool := entity.1.resolvedCall.isSome

def spaceRows : List (Fin entities.length × String) → List (Option ℕ × String)
  | [] => []
  | (place, id) :: later =>
    (if later.all fun deferral => decide (deferral.1 ≠ place) then
      heldRow entities (holdsSpace entities deferrals) place else none, id) :: spaceRows later

def addCall (calls : List (ℕ × ResolvedCall B C)) (deferral : Fin entities.length × String) :
    List (ℕ × ResolvedCall B C) :=
  match holderAt entities holdsCall deferral.1 with
  | some (row, holder) =>
    match holder.1.resolvedCall with
    | some call =>
      if holder.2 ≠ deferral.1.val ∨ calls.any (fun held => decide (held.1 = row)) then calls
      else calls ++ [(row, call)]
    | none => calls
  | none => calls

def candidate (entity : EntityFact L D B C S V) : Option String :=
  if entity.symbol ≠ "" ∧ entity.symbol ∉ deferrals.structural then some entity.symbol else none

def chain (group : Group L D B C S V) : List (D × Option String) :=
  group.members.filterMap fun entity => entity.1.typeDescriptor.map fun descriptor =>
    (descriptor, candidate entities deferrals entity.1)

def of : Patches D B C where
  spaces := spaceRows entities deferrals deferrals.spaces
  library := deferrals.library.map fun (place, id) => (heldRow entities holdsCall place, id)
  calls := deferrals.library.foldl (addCall entities) []
  descriptors := (groups entities.zipIdx).zipIdx.filterMap fun (group, row) =>
    let chain := chain entities deferrals group
    if chain.any fun entry => entry.2.isSome then some (rowNumber row, chain) else none

end

structure Answers (S : Type) where
  spaces : List S
  library : List Bool
  suppressed : List (List Bool)

def answer (patches : Patches D B C) (space : String → S) (written structural : String → Bool) :
    Answers S where
  spaces := patches.spaces.map fun entry => space entry.2
  library := patches.library.map fun entry => written entry.2
  suppressed := patches.descriptors.map fun entry => entry.2.map fun link => link.2.any structural

def stands (chain : List (D × Option String)) (suppressed : List Bool) : Option D :=
  ((chain.zip suppressed).reverse.find? fun entry => !entry.2).map fun entry => entry.1.1

variable [DecidableEq S] [DecidableEq D]

section

variable (patches : Patches D B C) (base : List (EntityFact L D B C S V)) (answers : Answers S)

def spaceChanges : List (ℕ × S) :=
  ((patches.spaces.zip answers.spaces).filterMap fun ((row, _), space) =>
    row.map fun row => (row, space)).filter fun (row, space) =>
      decide (base[row]?.bind EntityFact.referenceSpace ≠ some space)

omit [DecidableEq S] in
def withdrawnRows : List ℕ :=
  (patches.library.zip answers.library).filterMap fun ((row, _), written) =>
    row.filter fun _ => written

def descriptorChanges : List (ℕ × Option D) :=
  (patches.descriptors.zip answers.suppressed).filterMap fun ((row, chain), suppressed) =>
    if stands chain suppressed = base[row]?.bind EntityFact.typeDescriptor then none
    else some (row, stands chain suppressed)

def setCall (call : ResolvedCall B C) (row : EntityFact L D B C S V) : EntityFact L D B C S V :=
  { row with resolvedCall := some (withdraw call) }

def setDescriptor (descriptor : Option D) (row : EntityFact L D B C S V) :
    EntityFact L D B C S V := { row with typeDescriptor := descriptor }

def apply : List (EntityFact L D B C S V) :=
  let spaces := patches.spaceChanges base answers
  let withdrawn := patches.withdrawnRows answers
  let descriptors := patches.descriptorChanges base answers
  if spaces.isEmpty && withdrawn.isEmpty && descriptors.isEmpty then base
  else
    let rows := spaces.foldl (fun rows entry => rows.modify entry.1 (withSpace entry.2)) base
    let rows := patches.calls.foldl (fun rows entry =>
      if entry.1 ∈ withdrawn then rows.modify entry.1 (setCall entry.2) else rows) rows
    descriptors.foldl (fun rows entry => rows.modify entry.1 (setDescriptor entry.2)) rows

end

end Patches

end

section

variable [DecidableEq L] {placed : List (Placed L D B C S V)}

def Group.map (change : Placed L D B C S V → Placed L D B C S V) (group : Group L D B C S V) :
    Group L D B C S V := (change group.1, group.2.map change)

private theorem groups_map {change : Placed L D B C S V → Placed L D B C S V}
    (stays : ∀ entity, (change entity).1.location = entity.1.location) :
    groups (placed.map change) = (groups placed).map (Group.map change) := by
  induction placed with
  | nil => rfl
  | cons first later ih =>
    rw [map_cons, groups, groups, ih]
    rcases groups later with _ | ⟨⟨next, group⟩, rest⟩
    · rfl
    · simp only [map_cons, Group.map, stays]
      split <;> rfl

private theorem groups_flatMap (placed : List (Placed L D B C S V)) :
    (groups placed).flatMap Group.members = placed := by
  induction placed with
  | nil => rfl
  | cons first later ih =>
    rw [groups]
    generalize groups later = held at ih
    rcases held with _ | ⟨⟨next, group⟩, rest⟩
    · simpa [Group.members] using ih
    · dsimp only
      split <;> simpa [Group.members] using ih

private theorem groups_unique {entities : List (EntityFact L D B C S V)} {row other : ℕ}
    {group group' : Group L D B C S V} (here : (groups entities.zipIdx)[row]? = some group)
    (there : (groups entities.zipIdx)[other]? = some group') {entity entity' : Placed L D B C S V}
    (member : entity ∈ group.members) (member' : entity' ∈ group'.members)
    (same : entity.2 = entity'.2) : row = other := by
  have places : ((groups entities.zipIdx).flatMap fun group => group.members.map Prod.snd).Nodup := by
    rw [← map_flatMap, groups_flatMap, zipIdx_map_snd]
    exact nodup_range'
  have apart := (nodup_flatMap.mp places).2
  have disjoint : ∀ {row other : ℕ} {group group' : Group L D B C S V},
      (groups entities.zipIdx)[row]? = some group → (groups entities.zipIdx)[other]? = some group' →
      row < other → ∀ place ∈ group.members.map Prod.snd, place ∉ group'.members.map Prod.snd := by
    intro row other group group' here there less place inside outside
    obtain ⟨within, rfl⟩ := List.getElem?_eq_some_iff.mp here
    obtain ⟨within', rfl⟩ := List.getElem?_eq_some_iff.mp there
    exact List.pairwise_iff_getElem.mp apart row other within within' less inside outside
  have inside := mem_map_of_mem (f := Prod.snd) member
  have inside' := mem_map_of_mem (f := Prod.snd) member'
  rcases lt_trichotomy row other with less | equal | more
  · exact absurd inside' (same ▸ disjoint here there less entity.2 inside)
  · exact equal
  · exact absurd inside (same ▸ disjoint there here more entity'.2 inside')

end

section

variable {X Y : Type}

private theorem foldl_overwrite (set : Y → X → X) (overwrites : ∀ old new item,
    set new (set old item) = set new item) (values : List Y) (item : X) :
    values.foldl (fun item value => set value item) item =
      (values.getLast?.map fun value => set value item).getD item := by
  induction values using List.reverseRecOn with
  | nil => rfl
  | append_singleton values value ih =>
    rw [foldl_concat, ih, getLast?_concat]
    cases values.getLast? with
    | none => rfl
    | some old => exact overwrites old value item

private theorem last_change {Z : Type} {entries : List (ℕ × Y)} {row : ℕ} {new : Z} (finish : Option Y → Z)
    (listed : ∀ change, (row, change) ∈ entries → finish (some change) = new)
    (unlisted : (∀ change, (row, change) ∉ entries) → finish none = new) :
    finish ((entries.filter fun entry => entry.1 = row).getLast?.map Prod.snd) = new := by
  cases last : (entries.filter fun entry => entry.1 = row).getLast? with
  | some entry =>
    obtain ⟨member, here⟩ := mem_filter.mp (mem_of_getLast? last)
    obtain rfl := of_decide_eq_true here
    exact listed entry.2 member
  | none =>
    refine unlisted fun change member => ?_
    rw [getLast?_eq_none_iff] at last
    exact filter_eq_nil_iff.mp last _ member (decide_eq_true rfl)

private theorem findSome_eq_bind (get : X → Option Y) (items : List X) :
    items.findSome? get = (items.find? fun item => (get item).isSome).bind get := by
  induction items with
  | nil => rfl
  | cons item items ih =>
    rw [findSome?_cons, find?_cons]
    cases found : get item with
    | none => simpa using ih
    | some value => simp [found]

private theorem zip_map_self (make : X → Y) (items : List X) :
    items.zip (items.map make) = items.map fun item => (item, make item) := by
  simpa using zip_map' (f := fun item => item) (g := make) (l := items)

private theorem find_of_imp {weak strong : X → Bool} {items : List X} {item : X}
    (stronger : ∀ item, strong item → weak item)
    (found : items.find? weak = some item) (holds : strong item) :
    items.find? strong = some item := by
  obtain ⟨held, before, after, rfl, earlier⟩ := find?_eq_some_iff_append.mp found
  refine find?_eq_some_iff_append.mpr ⟨holds, before, after, rfl, fun other member => ?_⟩
  have not_weak := earlier other member
  cases strongly : strong other with
  | false => rfl
  | true => simp [stronger other strongly] at not_weak

private theorem getElem_foldl_modify (key : Y → ℕ) (change : Y → X → X) (entries : List Y)
    (items : List X) (place : ℕ) :
    (entries.foldl (fun items entry => items.modify (key entry) (change entry)) items)[place]? =
      items[place]?.map fun item => (entries.filter fun entry => key entry = place).foldl
          (fun item entry => change entry item) item := by
  induction entries generalizing items with
  | nil => simp
  | cons entry entries ih =>
    rw [foldl_cons, ih, getElem?_modify]
    by_cases here : key entry = place
    · simp [here, Function.comp_def]
    · simp [here]

variable (get : EntityFact L D B C S V → Option X)
  (merges : ∀ target entity, get (target.merge entity) = (get entity).or (get target))
  (bare : ∀ location, get (blank location) = none)

include merges bare

private theorem get_rowOf (group : Group L D B C S V) :
    get (rowOf group) = group.members.reverse.findSome? fun entity => get entity.1 := by
  have folded : ∀ (members : List (Placed L D B C S V)) (start : EntityFact L D B C S V),
      get (members.foldl (fun target entity => target.merge entity.1) start) =
        (members.reverse.findSome? fun entity => get entity.1).or (get start) := by
    intro members start
    induction members using List.reverseRecOn with
    | nil => simp
    | append_singleton members entity ih =>
      rw [foldl_concat, merges, ih, reverse_concat, findSome?_cons]
      cases get entity.1 <;> rfl
  unfold rowOf
  rw [folded, bare, Option.or_none]

private theorem get_rowOf_map (change : Placed L D B C S V → Placed L D B C S V)
    (group : Group L D B C S V) : get (rowOf (group.map change)) =
      group.members.reverse.findSome? fun entity => get (change entity).1 := by
  rw [get_rowOf get merges bare]
  change ((group.members.map change).reverse.findSome? _) = _
  rw [← map_reverse, findSome?_map]
  rfl

end

section

variable (space : String → S) (written structural : String → Bool)
  (entities : List (EntityFact L D B C S V)) (deferrals : Deferrals entities.length)

def spaceAt (place : ℕ) : Option S :=
  ((deferrals.spaces.filter fun deferral => decide (deferral.1.val = place)).getLast?).map
    fun deferral => space deferral.2

def withdrawnAt (place : ℕ) : Bool :=
  deferrals.library.any fun deferral => decide (deferral.1.val = place) && written deferral.2

def completed (entity : Placed L D B C S V) : Placed L D B C S V :=
  ({ entity.1 with
      referenceSpace := (spaceAt space entities deferrals entity.2).or entity.1.referenceSpace
      resolvedCall := if withdrawnAt written entities deferrals entity.2 then
        entity.1.resolvedCall.map withdraw else entity.1.resolvedCall
      typeDescriptor := if suppressed structural deferrals.structural entity.1.symbol then none
        else entity.1.typeDescriptor }, entity.2)

private theorem foldl_withSpace {Y : Type} (value : Y → S) (entries : List Y)
    (entity : EntityFact L D B C S V) :
    entries.foldl (fun entity entry => withSpace (value entry) entity) entity =
      { entity with referenceSpace := (entries.getLast?.map value).or entity.referenceSpace } := by
  rw [foldl_overwrite (fun entry => withSpace (value entry)) fun _ _ _ => rfl]
  cases entries.getLast? <;> rfl

private theorem foldl_withdrawCall {Y : Type} (value : Y → Bool) (entries : List Y)
    (entity : EntityFact L D B C S V) :
    entries.foldl (fun entity entry => withdrawCall (value entry) entity) entity =
      withdrawCall (entries.any value) entity := by
  induction entries using List.reverseRecOn with
  | nil => rfl
  | append_singleton entries entry ih =>
    rw [foldl_concat, ih, any_append, any_cons, any_nil, Bool.or_false]
    unfold withdrawCall
    cases entries.any value <;> cases value entry
    · rfl
    · rfl
    · rfl
    · simp only [if_true, Option.map_map, Bool.or_self]
      rfl

private theorem completeDeferred_zipIdx :
    (completeDeferred space written structural entities deferrals).zipIdx =
      entities.zipIdx.map (completed space written structural entities deferrals) := by
  refine ext_getElem? fun place => ?_
  unfold completeDeferred
  rw [getElem?_zipIdx, getElem?_map, getElem?_map, getElem?_zipIdx,
    getElem_foldl_modify (fun deferral : Fin entities.length × String => deferral.1.val)
      fun deferral => withdrawCall (written deferral.2),
    getElem_foldl_modify (fun deferral : Fin entities.length × String => deferral.1.val)
      fun deferral => withSpace (space deferral.2)]
  cases entities[place]? with
  | none => rfl
  | some entity =>
    simp only [Option.map_some, foldl_withSpace fun deferral : Fin entities.length × String =>
      space deferral.2, foldl_withdrawCall fun deferral : Fin entities.length × String =>
      written deferral.2, any_filter]
    unfold completed spaceAt withdrawnAt withdrawCall
    simp only [Nat.zero_add]
    cases deferrals.library.any fun deferral =>
        decide (deferral.1.val = place) && written deferral.2 <;>
      cases hidden : suppressed structural deferrals.structural entity.symbol <;>
      cases entity.typeDescriptor <;> simp [hidden]

end

namespace Patches

variable {entities : List (EntityFact L D B C S V)} {deferrals : Deferrals entities.length}
  {group : Group L D B C S V} {row : ℕ}

section

variable (space : String → S) (written structural : String → Bool)

private theorem spaceAt_isSome (place : ℕ) :
    (spaceAt space entities deferrals place).isSome = isDeferred entities deferrals place := by
  unfold spaceAt isDeferred
  rw [Option.isSome_map, Bool.eq_iff_iff, any_eq_true, getLast?_isSome]
  simp [filter_eq_nil_iff]

private theorem space_completed : (rowOf (group.map (completed space written structural entities
    deferrals))).referenceSpace =
      (group.members.reverse.find? (holdsSpace entities deferrals)).bind fun holder =>
        (spaceAt space entities deferrals holder.2).or holder.1.referenceSpace := by
  rw [get_rowOf_map EntityFact.referenceSpace (fun _ _ => rfl) fun _ => rfl, findSome_eq_bind]
  congr 2
  funext entity
  simp only [completed, holdsSpace, Option.isSome_or, spaceAt_isSome, Bool.or_comm]

private theorem call_completed : (rowOf (group.map (completed space written structural entities
    deferrals))).resolvedCall = (group.members.reverse.find? holdsCall).bind fun holder =>
        if withdrawnAt written entities deferrals holder.2 then
          holder.1.resolvedCall.map withdraw else holder.1.resolvedCall := by
  rw [get_rowOf_map EntityFact.resolvedCall (fun _ _ => rfl) fun _ => rfl, findSome_eq_bind]
  congr 2
  funext entity
  simp only [completed, holdsCall]
  split <;> simp

private theorem candidate_any (entity : EntityFact L D B C S V) :
    (candidate entities deferrals entity).any structural =
      suppressed structural deferrals.structural entity.symbol := by
  unfold candidate suppressed
  by_cases named : entity.symbol = "" <;> by_cases own : entity.symbol ∈ deferrals.structural <;>
    simp [named, own]

private theorem stands_completed : stands (chain entities deferrals group)
    ((chain entities deferrals group).map fun link => link.2.any structural) =
      (rowOf (group.map (completed space written structural entities
        deferrals))).typeDescriptor := by
  rw [get_rowOf_map EntityFact.typeDescriptor (fun _ _ => rfl) fun _ => rfl, stands, zip_map_self]
  unfold chain
  rw [← map_reverse, ← filterMap_reverse]
  induction group.members.reverse with
  | nil => rfl
  | cons entity later ih =>
    rw [filterMap_cons, findSome?_cons]
    cases held : entity.1.typeDescriptor with
    | none => simpa [completed, held] using ih
    | some descriptor =>
      cases hidden : suppressed structural deferrals.structural entity.1.symbol with
      | true => simpa [completed, held, hidden, candidate_any] using ih
      | false => simp [completed, held, hidden, candidate_any]

private theorem unsuppressed (bare : ¬ ((chain entities deferrals group).any fun entry => entry.2.isSome)) :
    (rowOf group).typeDescriptor = (rowOf (group.map (completed space written structural entities
      deferrals))).typeDescriptor := by
  have unasked : (chain entities deferrals group).map (fun link => link.2.any structural) =
      (chain entities deferrals group).map fun link => link.2.any fun _ => false := by
    refine map_congr_left fun link member => ?_
    have absent : link.2 = none := by
      simpa using fun held => bare (any_eq_true.mpr ⟨link, member, held⟩)
    rw [absent]
    rfl
  rw [← stands_completed, unasked, stands_completed space written fun _ => false,
    get_rowOf EntityFact.typeDescriptor (fun _ _ => rfl) fun _ => rfl,
    get_rowOf_map EntityFact.typeDescriptor (fun _ _ => rfl) fun _ => rfl]
  congr 1
  funext entity
  simp [completed, suppressed]

private theorem apply_getElem [DecidableEq S] [DecidableEq D] (patches : Patches D B C)
    (base : List (EntityFact L D B C S V)) (answers : Answers S) : (patches.apply base answers)[row]? =
      base[row]?.map fun fact => ((patches.descriptorChanges base answers).filter fun entry =>
          entry.1 = row).foldl (fun fact entry => setDescriptor entry.2 fact)
        (((patches.calls.filter fun entry => entry.1 ∈ patches.withdrawnRows answers).filter
          fun entry => entry.1 = row).foldl (fun fact entry => setCall entry.2 fact)
        (((patches.spaceChanges base answers).filter fun entry =>
          entry.1 = row).foldl (fun fact entry => withSpace entry.2 fact) fact)) := by
  have general : patches.apply base answers =
      (patches.descriptorChanges base answers).foldl (fun rows entry =>
        rows.modify entry.1 (setDescriptor entry.2))
      ((patches.calls.filter fun entry => entry.1 ∈ patches.withdrawnRows answers).foldl
        (fun rows entry => rows.modify entry.1 (setCall entry.2))
      ((patches.spaceChanges base answers).foldl (fun rows entry =>
        rows.modify entry.1 (withSpace entry.2)) base)) := by
    unfold apply
    rw [foldl_filter]
    simp only [decide_eq_true_eq]
    split
    · rename_i idle
      simp only [Bool.and_eq_true, List.isEmpty_iff] at idle
      rw [idle.1.1, idle.1.2, idle.2]
      simp [List.foldl_fixed]
    · rfl
  rw [general, getElem_foldl_modify Prod.fst fun entry => setDescriptor entry.2,
    getElem_foldl_modify Prod.fst fun entry => setCall entry.2,
    getElem_foldl_modify Prod.fst fun entry => withSpace entry.2, Option.map_map, Option.map_map]
  rfl

private theorem foldl_setCall (entries : List (ℕ × ResolvedCall B C)) (fact : EntityFact L D B C S V) :
    entries.foldl (fun fact entry => setCall entry.2 fact) fact = { fact with
      resolvedCall := ((entries.getLast?.map Prod.snd).map withdraw).or fact.resolvedCall } := by
  rw [foldl_overwrite (fun entry : ℕ × _ => setCall entry.2) fun _ _ _ => rfl]
  cases entries.getLast? <;> rfl

private theorem foldl_setDescriptor (entries : List (ℕ × Option D)) (fact : EntityFact L D B C S V) :
    entries.foldl (fun fact entry => setDescriptor entry.2 fact) fact = { fact with
      typeDescriptor := (entries.getLast?.map Prod.snd).getD fact.typeDescriptor } := by
  rw [foldl_overwrite (fun entry : ℕ × _ => setDescriptor entry.2) fun _ _ _ => rfl]
  cases entries.getLast? <;> rfl

variable {space written structural}

private theorem space_undeferred (unanswered : ∀ holder,
      group.members.reverse.find? (holdsSpace entities deferrals) = some holder →
        spaceAt space entities deferrals holder.2 = none) : (rowOf group).referenceSpace =
      (group.members.reverse.find? (holdsSpace entities deferrals)).bind fun holder =>
        holder.1.referenceSpace := by
  have stronger : ∀ entity, entity.1.referenceSpace.isSome →
      holdsSpace entities deferrals entity := by
    intro entity held
    simp [holdsSpace, held]
  rw [get_rowOf EntityFact.referenceSpace (fun _ _ => rfl) fun _ => rfl, findSome_eq_bind]
  cases found : group.members.reverse.find? (holdsSpace entities deferrals) with
  | none =>
    have absent : (group.members.reverse.find? fun entity =>
        entity.1.referenceSpace.isSome) = none := find?_eq_none.mpr fun entity member held =>
      find?_eq_none.mp found entity member (stronger entity held)
    rw [absent]
  | some holder =>
    have held : holdsSpace entities deferrals holder := find?_some found
    rw [holdsSpace, ← spaceAt_isSome space, unanswered holder found] at held
    rw [find_of_imp stronger found (by simpa using held)]

private theorem rowOf_completed :
    let row := rowOf (group.map (completed space written structural entities deferrals))
    { rowOf group with
      referenceSpace := row.referenceSpace
      resolvedCall := row.resolvedCall
      typeDescriptor := row.typeDescriptor } = row := by
  have folded : ∀ (members : List (Placed L D B C S V)) (start : EntityFact L D B C S V),
      let row := (members.map (completed space written structural entities deferrals)).foldl
        (fun target entity => target.merge entity.1) start
      { members.foldl (fun target entity => target.merge entity.1) start with
        referenceSpace := row.referenceSpace
        resolvedCall := row.resolvedCall
        typeDescriptor := row.typeDescriptor } = row := by
    intro members start
    induction members using List.reverseRecOn with
    | nil => rfl
    | append_singleton members entity ih =>
      rw [map_append, map_singleton, foldl_concat, foldl_concat, ← ih]
      rfl
  exact folded group.members _

end

variable [DecidableEq L]

section

variable {holds : Placed L D B C S V → Bool} {place : ℕ}

private theorem length_groups (placed : List (Placed L D B C S V)) : (groups placed).length ≤ placed.length := by
  induction placed with
  | nil => exact Nat.le_refl _
  | cons first later ih =>
    rw [groups]
    split
    · simp
    · rename_i found
      rw [found] at ih
      split_ifs <;> simp only [length_cons] at ih ⊢ <;> omega

variable (sized : entities.length ≤ 2 ^ 32)
include sized

private theorem rowNumber_eq (there : (groups entities.zipIdx)[row]? = some group) : rowNumber row = row := by
  obtain ⟨within, -⟩ := List.getElem?_eq_some_iff.mp there
  have bound := length_groups entities.zipIdx
  rw [length_zipIdx] at bound
  exact Nat.min_eq_left (by omega)

private theorem holderAt_iff {holder : Placed L D B C S V} :
    holderAt entities holds place = some (row, holder) ↔
      ∃ group, (groups entities.zipIdx)[row]? = some group ∧
        (∃ entity ∈ group.members, entity.2 = place) ∧
        group.members.reverse.find? holds = some holder := by
  have numbered : holderAt entities holds place =
      ((groups entities.zipIdx).zipIdx.find? fun group =>
        group.1.members.any fun entity => decide (entity.2 = place)).bind fun group =>
          (group.1.members.reverse.find? holds).map fun holder => (group.2, holder) := by
    refine Option.bind_congr fun found met => ?_
    have there := mem_zipIdx_iff_getElem?.mp (mem_of_find?_eq_some met)
    rw [rowNumber_eq sized there, there, Option.bind_some]
  rw [numbered]
  constructor
  · intro found
    obtain ⟨⟨group, other⟩, met, found⟩ := Option.bind_eq_some_iff.mp found
    obtain ⟨found_holder, looked, same⟩ := Option.map_eq_some_iff.mp found
    cases same
    have there := mem_zipIdx_iff_getElem?.mp (mem_of_find?_eq_some met)
    have inside := find?_some met
    simp only [any_eq_true, decide_eq_true_eq] at inside
    exact ⟨group, there, inside, looked⟩
  · rintro ⟨group, there, ⟨entity, member, same⟩, looked⟩
    cases met : (groups entities.zipIdx).zipIdx.find? fun group =>
        group.1.members.any fun entity => decide (entity.2 = place) with
    | none =>
      have never := find?_eq_none.mp met (group, row) (mem_zipIdx_iff_getElem?.mpr there)
      simp only [any_eq_true, decide_eq_true_eq, not_exists, not_and] at never
      exact absurd same (never entity member)
    | some first =>
      obtain ⟨other, index⟩ := first
      have here := mem_zipIdx_iff_getElem?.mp (mem_of_find?_eq_some met)
      have inside := find?_some met
      simp only [any_eq_true, decide_eq_true_eq] at inside here
      obtain ⟨entity', member', same'⟩ := inside
      obtain rfl := groups_unique here there member' member (same'.trans same.symm)
      cases here.symm.trans there
      simp [looked]

private theorem heldRow_iff : heldRow entities holds place = some row ↔
    ∃ group, (groups entities.zipIdx)[row]? = some group ∧
      ∃ holder, group.members.reverse.find? holds = some holder ∧ holder.2 = place := by
  unfold heldRow
  rw [Option.bind_eq_some_iff]
  constructor
  · rintro ⟨⟨other, holder⟩, found, kept⟩
    dsimp only at kept
    split_ifs at kept with same
    cases kept
    obtain ⟨group, there, -, looked⟩ := (holderAt_iff sized).mp found
    exact ⟨group, there, holder, looked, same⟩
  · rintro ⟨group, there, holder, looked, same⟩
    have member := mem_reverse.mp (mem_of_find?_eq_some looked)
    exact ⟨(row, holder), (holderAt_iff sized).mpr ⟨group, there, ⟨holder, member, same⟩, looked⟩,
      if_pos same⟩

omit sized in
private theorem mem_spaceRows (space : String → S) {value : S}
    (list : List (Fin entities.length × String)) :
    (∃ entry ∈ spaceRows entities deferrals list, entry.1 = some row ∧ space entry.2 = value) ↔
      ∃ place, heldRow entities (holdsSpace entities deferrals) place = some row ∧
        ((list.filter fun deferral => deferral.1.val = place).getLast?).map
          (fun deferral => space deferral.2) = some value := by
  induction list with
  | nil => simp [spaceRows]
  | cons deferral later ih =>
    obtain ⟨own, id⟩ := deferral
    have last : (later.all fun deferral => deferral.1 ≠ own) ↔
        later.filter (fun deferral => deferral.1.val = own.val) = [] := by
      simp [Fin.ext_iff]
    rw [spaceRows, exists_mem_cons_iff, ih]
    constructor
    · rintro (⟨head, answer⟩ | ⟨place, held, answer⟩)
      · split_ifs at head with alone
        exact ⟨own, head, by simp [last.mp alone, answer]⟩
      · refine ⟨place, held, ?_⟩
        obtain ⟨final, found, same⟩ := Option.map_eq_some_iff.mp answer
        rw [filter_cons]
        split <;> simp [getLast?_cons, found, same]
    · rintro ⟨place, held, answer⟩
      by_cases here : own.val = place
      · subst here
        cases rest : later.filter (fun deferral => deferral.1.val = own.val) with
        | nil => exact .inl ⟨by rw [if_pos (last.mpr rest), held], by simpa [rest] using answer⟩
        | cons first more =>
          refine .inr ⟨own, held, ?_⟩
          simpa [rest, getLast?_cons] using answer
      · exact .inr ⟨place, held, by simpa [filter_cons, here] using answer⟩

private theorem calls_sound (list : List (Fin entities.length × String)) {call : ResolvedCall B C}
    (member : (row, call) ∈ list.foldl (addCall entities) []) :
    ∃ group, (groups entities.zipIdx)[row]? = some group ∧
      ∃ holder, group.members.reverse.find? holdsCall = some holder ∧
        holder.1.resolvedCall = some call := by
  induction list using List.reverseRecOn with
  | nil => cases member
  | append_singleton list deferral ih =>
    rw [foldl_concat, addCall] at member
    split at member
    · rename_i other holder found
      split at member
      · rename_i held call_held
        split_ifs at member
        · exact ih member
        · rcases mem_append.mp member with earlier | last
          · exact ih earlier
          · cases mem_singleton.mp last
            obtain ⟨group, there, -, looked⟩ := (holderAt_iff sized).mp found
            exact ⟨group, there, holder, looked, call_held⟩
      · exact ih member
    · exact ih member

private theorem calls_complete {list : List (Fin entities.length × String)}
    {deferral : Fin entities.length × String} (member : deferral ∈ list)
    (held : heldRow entities holdsCall deferral.1 = some row) :
    ∃ call, (row, call) ∈ list.foldl (addCall entities) [] := by
  induction list using List.reverseRecOn with
  | nil => cases member
  | append_singleton list last ih =>
    rw [foldl_concat]
    generalize list.foldl (addCall entities) [] = calls at ih
    rcases mem_append.mp member with earlier | here
    · obtain ⟨call, noted⟩ := ih earlier
      refine ⟨call, ?_⟩
      unfold addCall
      split
      · split
        · split_ifs
          · exact noted
          · exact mem_append_left _ noted
        · exact noted
      · exact noted
    · obtain rfl := mem_singleton.mp here
      obtain ⟨group, there, holder, looked, same⟩ := (heldRow_iff sized).mp held
      have inside := mem_reverse.mp (mem_of_find?_eq_some looked)
      have has_call : holdsCall holder := find?_some looked
      obtain ⟨call, call_held⟩ := Option.isSome_iff_exists.mp has_call
      unfold addCall
      rw [(holderAt_iff sized).mpr ⟨group, there, ⟨holder, inside, same⟩, looked⟩]
      dsimp only
      rw [call_held]
      split_ifs with noted
      · rcases noted with other | noted
        · exact absurd same other
        · obtain ⟨⟨other, found⟩, found_member, found_row⟩ := any_eq_true.mp noted
          obtain rfl := of_decide_eq_true found_row
          exact ⟨found, found_member⟩
      · exact ⟨call, mem_append_right _ mem_cons_self⟩

end

section

variable {space : String → S} {written structural : String → Bool}
  (there : (groups entities.zipIdx)[row]? = some group)

include there

private theorem mem_spaceChanges [DecidableEq S] (value : S) : (row, value) ∈ (of entities deferrals).spaceChanges
    ((groups entities.zipIdx).map rowOf) ((of entities deferrals).answer space written structural) ↔
      (∃ holder, group.members.reverse.find? (holdsSpace entities deferrals) = some holder ∧
        spaceAt space entities deferrals holder.2 = some value) ∧
        (rowOf group).referenceSpace ≠ some value := by
  have rows : (∃ entry ∈ spaceRows entities deferrals deferrals.spaces, entry.1 = some row ∧
      space entry.2 = value) ↔ _ := mem_spaceRows space deferrals.spaces
  simp only [heldRow_iff deferrals.sized, there, Option.some.injEq, exists_eq_left', exists_exists_and_eq_and]
    at rows
  refine .trans ?_ (and_congr_left' rows)
  simp only [spaceChanges, answer, of, zip_map_self, mem_filter, mem_filterMap,
    mem_map, getElem?_map, there, Option.map_some, Option.bind_some, decide_eq_true_eq]
  refine and_congr_left fun _ => ?_
  constructor
  · rintro ⟨_, ⟨entry, member, rfl⟩, found⟩
    obtain ⟨_, held, same⟩ := Option.map_eq_some_iff.mp found
    cases same
    exact ⟨entry, member, held, rfl⟩
  · rintro ⟨entry, member, held, rfl⟩
    exact ⟨_, ⟨entry, member, rfl⟩, by simp [held]⟩

private theorem space_changes [DecidableEq S] :
    ((((of entities deferrals).spaceChanges ((groups entities.zipIdx).map rowOf)
        ((of entities deferrals).answer space written structural)).filter fun entry =>
          entry.1 = row).getLast?.map Prod.snd).or (rowOf group).referenceSpace =
      (rowOf (group.map (completed space written structural entities deferrals))).referenceSpace := by
  rw [space_completed]
  refine last_change (·.or (rowOf group).referenceSpace) (fun value member => ?_) fun unlisted => ?_
  · obtain ⟨⟨holder, found, answered⟩, -⟩ := (mem_spaceChanges there value).mp member
    simp [found, answered]
  · rw [Option.none_or]
    by_cases answered : ∃ holder value,
        group.members.reverse.find? (holdsSpace entities deferrals) = some holder ∧
          spaceAt space entities deferrals holder.2 = some value
    · obtain ⟨holder, value, found, answer⟩ := answered
      by_contra differ
      refine unlisted value ((mem_spaceChanges there value).mpr ⟨⟨holder, found, answer⟩, ?_⟩)
      simpa [found, answer] using differ
    · have unanswered : ∀ holder,
          group.members.reverse.find? (holdsSpace entities deferrals) = some holder →
            spaceAt space entities deferrals holder.2 = none := fun holder found =>
        Option.eq_none_iff_forall_ne_some.mpr fun value answer =>
          answered ⟨holder, value, found, answer⟩
      rw [space_undeferred unanswered]
      refine Option.bind_congr fun holder found => ?_
      rw [unanswered holder found, Option.none_or]

private theorem mem_withdrawnRows : row ∈ (of entities deferrals).withdrawnRows
    ((of entities deferrals).answer space written structural) ↔
      ∃ holder, group.members.reverse.find? holdsCall = some holder ∧
        withdrawnAt written entities deferrals holder.2 := by
  simp only [withdrawnRows, answer, of, zip_map_self, mem_filterMap, mem_map,
    Option.filter_eq_some_iff, withdrawnAt, any_eq_true, Bool.and_eq_true, decide_eq_true_eq]
  constructor
  · rintro ⟨_, ⟨_, ⟨deferral, member, rfl⟩, rfl⟩, held, write⟩
    obtain ⟨group', there', holder, found, same⟩ := (heldRow_iff deferrals.sized).mp held
    cases there.symm.trans there'
    exact ⟨holder, found, deferral, member, same.symm, write⟩
  · rintro ⟨holder, found, deferral, member, same, write⟩
    exact ⟨_, ⟨_, ⟨deferral, member, rfl⟩, rfl⟩,
      (heldRow_iff deferrals.sized).mpr ⟨group, there, holder, found, same.symm⟩, write⟩

private theorem call_changes : (((((of entities deferrals).calls.filter fun entry => entry.1 ∈
        (of entities deferrals).withdrawnRows
          ((of entities deferrals).answer space written structural)).filter fun entry =>
          entry.1 = row).getLast?.map Prod.snd).map withdraw).or (rowOf group).resolvedCall =
      (rowOf (group.map (completed space written structural entities deferrals))).resolvedCall := by
  have before : (rowOf group).resolvedCall = (group.members.reverse.find? holdsCall).bind
      fun entity => entity.1.resolvedCall := by
    rw [get_rowOf EntityFact.resolvedCall (fun _ _ => rfl) fun _ => rfl, findSome_eq_bind]
    rfl
  rw [call_completed, before]
  refine last_change (fun call => (call.map withdraw).or _) (fun call member => ?_) fun unlisted => ?_
  · obtain ⟨noted, withdrawn⟩ := mem_filter.mp member
    obtain ⟨holder, found, write⟩ := (mem_withdrawnRows there).mp (of_decide_eq_true withdrawn)
    obtain ⟨group', there', holder', found', held⟩ := calls_sound deferrals.sized _ noted
    cases there.symm.trans there'
    cases found.symm.trans found'
    simp [found, write, held]
  · rw [Option.map_none, Option.none_or]
    refine Option.bind_congr fun holder found => ?_
    have kept : ¬ withdrawnAt written entities deferrals holder.2 := by
      intro write
      obtain ⟨deferral, member, same⟩ := any_eq_true.mp write
      simp only [Bool.and_eq_true, decide_eq_true_eq] at same
      obtain ⟨call, noted⟩ := calls_complete deferrals.sized member
        ((heldRow_iff deferrals.sized).mpr ⟨group, there, holder, found, same.1.symm⟩)
      exact unlisted call (mem_filter.mpr ⟨noted, decide_eq_true
        ((mem_withdrawnRows there).mpr ⟨holder, found, write⟩)⟩)
    rw [if_neg kept]

private theorem mem_descriptorChanges [DecidableEq D] (descriptor : Option D) :
    (row, descriptor) ∈ (of entities deferrals).descriptorChanges
      ((groups entities.zipIdx).map rowOf)
      ((of entities deferrals).answer space written structural) ↔
        ((chain entities deferrals group).any fun entry => entry.2.isSome) ∧
          descriptor = (rowOf (group.map (completed space written structural entities
            deferrals))).typeDescriptor ∧ descriptor ≠ (rowOf group).typeDescriptor := by
  rw [← stands_completed]
  simp only [descriptorChanges, answer, of, zip_map_self, mem_filterMap, mem_map,
    Option.ite_none_left_eq_some, Option.ite_none_right_eq_some, Option.some.injEq,
    Prod.mk.injEq, getElem?_map]
  constructor
  · rintro ⟨_, ⟨_, ⟨⟨group', row'⟩, member, some, rfl⟩, rfl⟩, differ, rfl, rfl⟩
    rw [mem_zipIdx_iff_getElem?] at member
    rw [rowNumber_eq deferrals.sized member] at there differ ⊢
    cases there.symm.trans member
    rw [there] at differ
    exact ⟨some, rfl, differ⟩
  · rintro ⟨some, rfl, differ⟩
    refine ⟨_, ⟨_, ⟨(group, row), mem_zipIdx_iff_getElem?.mpr there, some, rfl⟩, rfl⟩, ?_, ?_, ?_⟩
    · rw [rowNumber_eq deferrals.sized there, there]
      exact differ
    · exact rowNumber_eq deferrals.sized there
    · rfl

private theorem descriptor_changes [DecidableEq D] :
    ((((of entities deferrals).descriptorChanges ((groups entities.zipIdx).map rowOf)
        ((of entities deferrals).answer space written structural)).filter fun entry =>
          entry.1 = row).getLast?.map Prod.snd).getD (rowOf group).typeDescriptor =
      (rowOf (group.map (completed space written structural entities
        deferrals))).typeDescriptor := by
  refine last_change (·.getD (rowOf group).typeDescriptor) (fun descriptor member => ?_)
    fun unlisted => ?_
  · exact ((mem_descriptorChanges there descriptor).mp member).2.1
  · by_cases some : ((chain entities deferrals group).any fun entry => entry.2.isSome)
    · by_contra differ
      exact unlisted _ ((mem_descriptorChanges there _).mpr ⟨some, rfl, Ne.symm differ⟩)
    · exact unsuppressed space written structural some

omit there in
private theorem apply_completed [DecidableEq S] [DecidableEq D] :
    (of entities deferrals).apply ((groups entities.zipIdx).map rowOf)
        ((of entities deferrals).answer space written structural) =
      ((groups entities.zipIdx).map (Group.map (completed space written structural entities
        deferrals))).map rowOf := by
  refine ext_getElem? fun row => ?_
  rw [apply_getElem, getElem?_map, getElem?_map, getElem?_map]
  cases there : (groups entities.zipIdx)[row]? with
  | none => rfl
  | some group =>
    simp only [Option.map_some]
    rw [foldl_withSpace Prod.snd, foldl_setCall, foldl_setDescriptor]
    rw [space_changes there, call_changes there, descriptor_changes there, rowOf_completed]

end

end Patches

/-- Preparing a run and then completing it in the rows is completing the run and then preparing
it. -/
theorem completion_commutes [DecidableEq L] [DecidableEq S] [DecidableEq D] (space : String → S)
    (written structural : String → Bool) (demands : List L)
    (entities : List (EntityFact L D B C S V)) (deferrals : Deferrals entities.length) :
    (prepareRows demands entities).map (fun rows => (Patches.of entities deferrals).apply rows
        ((Patches.of entities deferrals).answer space written structural)) =
      prepareRows demands (completeDeferred space written structural entities deferrals) := by
  have places := completeDeferred_zipIdx space written structural entities deferrals
  generalize completeDeferred space written structural entities deferrals = after at places ⊢
  have grouped : groups after.zipIdx = (groups entities.zipIdx).map
      (.map (completed space written structural entities deferrals)) := by
    rw [places]
    exact groups_map fun _ => rfl
  have unmoved : after.map EntityFact.location = entities.map EntityFact.location := by
    rw [← zipIdx_map_fst 0 after, places, map_map, map_map]
    conv_rhs => rw [← zipIdx_map_fst 0 entities, map_map]
    rfl
  have counted : after.length = entities.length := by simpa using congrArg List.length unmoved
  rw [prepareRows, prepareRows, unmoved, counted, grouped, ← Patches.apply_completed]
  split_ifs
  · rfl
  · cases ((entities.map EntityFact.location).zip demands).zipIdx.find? fun entry =>
        decide (entry.1.1 ≠ entry.1.2) with
    | none => rfl
    | some entry => rfl

/-- Two entities at one location; the second has its space and the binding of its call deferred. -/
def sampleRun : List (EntityFact ℕ ℕ ℕ ℕ ℕ ℕ) :=
  [blank 0, ⟨0, "", .absent, none, some ⟨some 1, 2⟩, none, false, fun _ => none⟩]

def sampleDeferrals : Deferrals 2 := ⟨[(1, "a")], [(1, "b")], ∅, by decide⟩

theorem completion_commutes_of_two :
    let patches := Patches.of sampleRun sampleDeferrals
    (prepareRows [0, 0] sampleRun).map (fun rows => patches.apply rows
        (patches.answer (fun _ => 3) (fun _ => true) fun _ => false)) =
      prepareRows [0, 0] (completeDeferred (fun _ => 3) (fun _ => true) (fun _ => false) sampleRun
        sampleDeferrals) :=
  completion_commutes _ _ _ _ _ _

end SolidChecker.Passes.Completion
