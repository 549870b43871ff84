/- source: apps/solid-typefacts/src/passes.rs -/

import SolidChecker.Passes.Merge

namespace SolidChecker.Passes.Merged

open Foundation List Option

variable {S Q D : Type} [LinearOrder S] (heap : ℕ → PassOutput S Q D)

section

def minted (slots : List (Option ℕ)) (id : S) : List Q :=
  slots.filterMap fun slot => slot.bind fun output => (heap output).key id

def provides (id : S) (slot : Option ℕ) : Bool :=
  slot.any fun output => ((heap output).row id).isSome

def providing (first : ℕ) (slots : List (Option ℕ)) (id : S) : List ℕ :=
  ((slots.zipIdx first).filter fun entry => provides heap id entry.1).map Prod.snd

def summary (keys : List Q) : Option (Q × ℕ) := keys.head?.map fun key => (key, keys.length)

def ofPositions (positions : List ℕ) : Option (List ℕ) :=
  if positions = [] then none else some positions

def Agree (slots : List (Option ℕ)) : Prop :=
  ∀ id, ∀ first ∈ minted heap slots id, ∀ second ∈ minted heap slots id, first = second

/-- Keys and providers are those of the outputs in place, no two of which mint an id for two keys. -/
structure Settled (slots : List (Option ℕ)) (working : Working S Q) : Prop where
  agree : Agree heap slots
  keys : ∀ id, working.1.lookup id = summary (minted heap slots id)
  providers : ∀ id, working.2.lookup id = ofPositions (providing heap 0 slots id)

variable {slots : List (Option ℕ)}

theorem mem_minted {id : S} {key : Q} :
    key ∈ minted heap slots id ↔ ∃ output, some output ∈ slots ∧ (heap output).key id = some key := by
  unfold minted
  rw [mem_filterMap]
  constructor
  · rintro ⟨slot, member, found⟩
    obtain ⟨output, rfl, key⟩ := bind_eq_some_iff.mp found
    exact ⟨output, member, key⟩
  · rintro ⟨output, member, key⟩
    exact ⟨some output, member, key⟩

variable (front back : List (Option ℕ)) (slot : Option ℕ) (id : S)

private theorem minted_split : minted heap (front ++ slot :: back) id = minted heap front id ++
      ((slot.bind fun output => (heap output).key id).toList ++ minted heap back id) := by
  unfold minted
  rw [filterMap_append, filterMap_cons]
  cases (slot.bind fun output => (heap output).key id) <;> rfl

theorem providing_split (first : ℕ) :
    providing heap first (front ++ slot :: back) id = providing heap first front id ++
      ((if provides heap id slot then [first + front.length] else []) ++
        providing heap (first + front.length + 1) back id) := by
  unfold providing
  rw [zipIdx_append, zipIdx_cons, filter_append, map_append, filter_cons]
  split
  · rfl
  · rfl

private theorem providing_bounds {id : S} {first place : ℕ}
    (member : place ∈ providing heap first slots id) :
    first ≤ place ∧ place < first + slots.length := by
  obtain ⟨entry, kept, rfl⟩ := mem_map.mp member
  have bounds := mem_zipIdx (mem_filter.mp kept).1
  omega

end

section

variable {before after : List Q} {key : Q}

private theorem length_around : (before ++ key :: after).length = (before ++ after).length + 1 := by
  rw [length_append, length_append, length_cons]
  omega

private theorem dropKey_summary (same : ∀ other ∈ before ++ key :: after, other = key)
    (few : (before ++ key :: after).length < 2 ^ 32) :
    dropKey (summary (before ++ key :: after)) = summary (before ++ after) := by
  obtain ⟨first, rest, shape⟩ : ∃ first rest, before ++ key :: after = first :: rest :=
    exists_cons_of_ne_nil (append_ne_nil_of_right_ne_nil _ (cons_ne_nil _ _))
  have head : first = key := same first (shape ▸ mem_cons_self)
  have counted : ((before ++ key :: after).length + (2 ^ 32 - 1)) % 2 ^ 32 =
      (before ++ after).length := by
    rw [length_around] at few ⊢
    omega
  unfold dropKey summary
  rw [show (before ++ key :: after).head? = some key by rw [shape, head]; rfl]
  dsimp only [map_some]
  rw [counted]
  cases left : before ++ after with
  | nil => rfl
  | cons other later =>
    have within : other ∈ before ++ key :: after := by
      have member : other ∈ before ++ after := left ▸ mem_cons_self
      rcases mem_append.mp member with inBefore | inAfter
      · exact mem_append_left _ inBefore
      · exact mem_append_right _ (mem_cons_of_mem key inAfter)
    rw [if_neg (by rw [length_cons]; omega), same other within]
    rfl

private theorem summary_add (same : ∀ other ∈ before ++ after, other = key)
    (few : (before ++ after).length + 1 < 2 ^ 32) :
    summary (before ++ key :: after) = some (match summary (before ++ after) with
      | none => (key, 1)
      | some (held, count) => (held, (count + 1) % 2 ^ 32)) := by
  have head : (before ++ key :: after).head? = some key := by
    cases before with
    | nil => rfl
    | cons first rest =>
      rw [cons_append, head?_cons, same first mem_cons_self]
  unfold summary
  rw [head, length_around]
  cases left : before ++ after with
  | nil => rfl
  | cons other later =>
    rw [left] at few
    dsimp only [map_some, head?_cons]
    rw [Nat.mod_eq_of_lt few, same other (left ▸ mem_cons_self)]

variable {below above : List ℕ} {place : ℕ} (low : ∀ other ∈ below, other < place)
  (high : ∀ other ∈ above, place < other)
include low high

private theorem dropPosition_ofPositions :
    dropPosition place (ofPositions (below ++ ([place] ++ above))) = ofPositions (below ++ above) := by
  have kept : ∀ others : List ℕ, (∀ other ∈ others, other ≠ place) →
      others.filter (fun held => held ≠ place) = others := by
    intro others differ
    exact filter_eq_self.mpr fun other member => decide_eq_true (differ other member)
  have filtered : (below ++ ([place] ++ above)).filter (fun held => held ≠ place) =
      below ++ above := by
    rw [filter_append, filter_append, kept below fun other member => (low other member).ne,
      kept above fun other member => (high other member).ne']
    simp
  have filled : below ++ ([place] ++ above) ≠ [] := by simp
  unfold ofPositions
  rw [if_neg filled]
  unfold dropPosition
  dsimp only
  rw [filtered]

private theorem addPosition_ofPositions :
    addPosition place (ofPositions (below ++ above)) = below ++ ([place] ++ above) := by
  have held : (ofPositions (below ++ above)).getD [] = below ++ above := by
    unfold ofPositions
    split
    · rename_i empty
      exact empty.symm
    · rfl
  have absent : place ∉ below ++ above := by
    intro member
    rcases mem_append.mp member with inBelow | inAbove
    · exact lt_irrefl place (low place inBelow)
    · exact lt_irrefl place (high place inAbove)
  unfold addPosition
  rw [held]
  rw [if_neg absent]
  clear held absent
  induction below with
  | nil =>
    cases above with
    | nil => rfl
    | cons next above =>
      exact orderedInsert_cons_of_le _ _ (high next mem_cons_self).le
  | cons first below ih =>
    have later : first < place := low first mem_cons_self
    rw [cons_append, orderedInsert_cons, if_neg (not_le.mpr later),
      ih fun other member => low other (mem_cons_of_mem first member)]
    rfl

end

section

variable (keys : Finmap fun _ : S => Q × ℕ) (providers : Finmap fun _ : S => List ℕ)
  (output : PassOutput S Q D)

private theorem lookup_leaveKeys (id : S) : (leaveKeys keys output).lookup id =
      if (output.key id).isSome then dropKey (keys.lookup id) else keys.lookup id := by
  unfold leaveKeys PassOutput.key
  rw [Table.lookup_foldl_put (fun _ => dropKey) output.keys.keys_nodup]
  rw [show output.keys.list.find? (fun item => item.1 = id) = output.keys.get id from rfl]
  cases output.keys.get id <;> rfl

theorem lookup_leaveProviders (place : ℕ) (id : S) :
    (leaveProviders providers place output).lookup id =
      if (output.row id).isSome then dropPosition place (providers.lookup id)
      else providers.lookup id := by
  unfold leaveProviders PassOutput.row
  rw [Table.lookup_foldl_put (fun _ => dropPosition place) output.rows.keys_nodup]
  rw [show output.rows.list.find? (fun item => item.1 = id) = output.rows.get id from rfl]
  cases output.rows.get id <;> rfl

theorem lookup_enterProviders (place : ℕ) (id : S) :
    (enterProviders providers place output).lookup id =
      if (output.row id).isSome then some (addPosition place (providers.lookup id))
      else providers.lookup id := by
  unfold enterProviders PassOutput.row
  rw [Table.lookup_foldl_put (fun _ positions => some (addPosition place positions))
    output.rows.keys_nodup]
  rw [show output.rows.list.find? (fun item => item.1 = id) = output.rows.get id from rfl]
  cases output.rows.get id <;> rfl

private theorem mem_keys_iff (id : S) (key : Q) :
    (id, key) ∈ output.keys.list ↔ output.key id = some key := by
  unfold PassOutput.key
  rw [Rows.mem_iff, Option.map_eq_some_iff]
  constructor
  · intro found
    exact ⟨(id, key), found, rfl⟩
  · rintro ⟨⟨other, _⟩, found, rfl⟩
    rw [show other = id from Rows.key_of_get found] at found
    exact found

def countKey (key : Q) : Option (Q × ℕ) → Q × ℕ
  | none => (key, 1)
  | some (held, count) => (held, (count + 1) % 2 ^ 32)

variable [DecidableEq Q]

def Fits (minted : S × Q) : Prop :=
  ∀ held ∈ (keys.lookup minted.1).map Prod.fst, held = minted.2

private theorem enterKey_eq (minted : S × Q) [Decidable (Fits keys minted)] :
    enterKey keys minted = if Fits keys minted then
      .ok (Table.put keys minted.1 (some (countKey minted.2 (keys.lookup minted.1))))
      else .error minted.1 := by
  unfold enterKey
  cases looked : keys.lookup minted.1 with
  | none => exact (if_pos (by simp [Fits, looked])).symm
  | some entry =>
    by_cases same : entry.1 = minted.2
    · have fits : Fits keys minted := by simp [Fits, looked, same]
      simp [fits, same, countKey, Table.put]
    · have clash : ¬Fits keys minted := by simp [Fits, looked, same]
      simp [clash, same]

private theorem foldlM_enterKey {pairs : List (S × Q)} (distinct : (pairs.map Prod.fst).Nodup) :
    (∃ minted ∈ pairs, ¬Fits keys minted ∧ pairs.foldlM enterKey keys = .error minted.1) ∨
      (∀ minted ∈ pairs, Fits keys minted) ∧
        pairs.foldlM enterKey keys = .ok (pairs.foldl (fun keys minted => Table.put keys minted.1
          (some (countKey minted.2 (keys.lookup minted.1)))) keys) := by
  classical
  induction pairs generalizing keys with
  | nil => exact .inr ⟨forall_mem_nil _, rfl⟩
  | cons first later ih =>
    obtain ⟨apart, rest⟩ := nodup_cons.mp distinct
    rw [foldlM_cons, enterKey_eq]
    by_cases fits : Fits keys first
    · have others : ∀ minted ∈ later, (Fits (Table.put keys first.1 (some (countKey first.2
          (keys.lookup first.1)))) minted ↔ Fits keys minted) := by
        intro minted member
        have differ : minted.1 ≠ first.1 := fun same => apart (mem_map.mpr ⟨minted, member, same⟩)
        rw [Fits, Fits, Table.lookup_put, if_neg differ]
      rw [if_pos fits]
      rcases ih (Table.put keys first.1 (some (countKey first.2 (keys.lookup first.1)))) rest with
        ⟨minted, member, clash, fails⟩ | ⟨all, succeeds⟩
      · exact .inl ⟨minted, mem_cons_of_mem _ member, mt (others minted member).mpr clash, fails⟩
      · exact .inr ⟨forall_mem_cons.mpr ⟨fits, fun minted member =>
          (others minted member).mp (all minted member)⟩, succeeds⟩
    · rw [if_neg fits]
      exact .inl ⟨first, mem_cons_self, fits, rfl⟩

private theorem enterKeys_spec :
    (∃ id key, enterKeys keys output = .error id ∧ output.key id = some key ∧
        ¬Fits keys (id, key)) ∨
      ∃ entered, enterKeys keys output = .ok entered ∧
        (∀ id key, output.key id = some key → Fits keys (id, key)) ∧
        ∀ id, entered.lookup id = match output.key id with
          | some key => some (countKey key (keys.lookup id))
          | none => keys.lookup id := by
  rcases foldlM_enterKey keys output.keys.keys_nodup with
    ⟨minted, member, clash, fails⟩ | ⟨fits, succeeds⟩
  · exact .inl ⟨minted.1, minted.2, fails, (mem_keys_iff output _ _).mp member, clash⟩
  · refine .inr ⟨_, succeeds, fun id key mints => fits _ ((mem_keys_iff output id key).mpr mints),
      fun id => ?_⟩
    rw [Table.lookup_foldl_put (fun minted held => some (countKey minted.2 held))
      output.keys.keys_nodup]
    unfold PassOutput.key
    rw [show output.keys.list.find? (fun item => item.1 = id) = output.keys.get id from rfl]
    cases output.keys.get id <;> rfl

end

section

variable {heap} {front back : List (Option ℕ)} {working : Working S Q}

variable (heap) in
private theorem length_minted (slots : List (Option ℕ)) (id : S) :
    (minted heap slots id).length ≤ slots.length := length_filterMap_le _ _

section

variable {slots more : List (Option ℕ)}
  (within : ∀ output, some output ∈ slots → some output ∈ more)
include within

private theorem mem_minted_of_subset {id : S} {key : Q}
    (member : key ∈ minted heap slots id) : key ∈ minted heap more id := by
  obtain ⟨output, placed, mints⟩ := (mem_minted heap).mp member
  exact (mem_minted heap).mpr ⟨output, within output placed, mints⟩

private theorem Agree.of_subset (agree : Agree heap more) : Agree heap slots := fun id first inFirst second inSecond =>
  agree id first (mem_minted_of_subset within inFirst) second (mem_minted_of_subset within inSecond)

end

variable {slot : Option ℕ}

private theorem mem_filled (output : ℕ)
    (placed : some output ∈ front ++ none :: back) : some output ∈ front ++ slot :: back := by
  simp only [mem_append, mem_cons, reduceCtorEq, false_or] at placed ⊢
  exact placed.imp_right .inr

private theorem position_eq (few : (front ++ slot :: back).length < 2 ^ 32) :
    position front.length = front.length := by
  rw [length_append, length_cons] at few
  unfold position
  omega

private theorem below_place (id : S) : ∀ other ∈ providing heap 0 front id, other < front.length :=
  fun other member => by
    have bounds := providing_bounds heap member
    omega

private theorem above_place (id : S) :
    ∀ other ∈ providing heap (front.length + 1) back id, front.length < other :=
  fun other member => by
    have bounds := providing_bounds heap member
    omega

private theorem settled_leave {old new : ℕ} (settled : Settled heap (front ++ some old :: back) working)
    (few : (front ++ some old :: back).length < 2 ^ 32) : Settled heap (front ++ none :: back)
      (leavePlace heap working (front.length, some old, new)) := by
  have split := fun slot id => minted_split heap front back slot id
  have rows := fun slot id => providing_split heap front back slot id 0
  refine ⟨settled.agree.of_subset mem_filled, fun id => ?_, fun id => ?_⟩
  · change (leaveKeys working.1 (heap old)).lookup id = _
    have count := length_minted heap (front ++ some old :: back) id
    have agree := settled.agree id
    rw [lookup_leaveKeys, settled.keys id]
    rw [split] at agree count ⊢
    rw [split none]
    cases mints : (heap old).key id with
    | none =>
      rw [bind_some, mints]
      rfl
    | some key =>
      rw [bind_some, mints] at agree count ⊢
      refine (if_pos rfl).trans (dropKey_summary (fun other member => ?_) (count.trans_lt few))
      exact agree other member key (mem_append_right _ mem_cons_self)
  · change (leaveProviders working.2 (position front.length) (heap old)).lookup id = _
    rw [lookup_leaveProviders, settled.providers id, position_eq few, rows, rows none]
    change (if provides heap id (some old) = true then _ else _) = _
    split
    · rw [Nat.zero_add]
      exact dropPosition_ofPositions (below_place id) (above_place id)
    · rfl

variable [DecidableEq Q]

private theorem settled_enter (old : Option ℕ) (new : ℕ)
    (settled : Settled heap (front ++ none :: back) working)
    (few : (front ++ none :: back).length < 2 ^ 32) :
    (∃ id, enterPlace heap working (front.length, old, new) = .error id ∧
        ¬Agree heap (front ++ some new :: back)) ∨
      ∃ entered, enterPlace heap working (front.length, old, new) = .ok entered ∧
        Settled heap (front ++ some new :: back) entered := by
  have split := fun slot id => minted_split heap front back slot id
  have rows := fun slot id => providing_split heap front back slot id 0
  have free : ∀ id, minted heap (front ++ none :: back) id =
      minted heap front id ++ minted heap back id := fun id => split none id
  have placed : some new ∈ front ++ some new :: back := mem_append_right _ mem_cons_self
  unfold enterPlace
  rcases enterKeys_spec working.1 (heap new) with
    ⟨id, key, fails, mints, clash⟩ | ⟨entered, succeeds, fits, counted⟩
  · refine .inl ⟨id, by rw [fails]; rfl, fun agree => clash fun held found => ?_⟩
    rw [settled.keys id, summary, Option.map_map] at found
    obtain ⟨first, head, rfl⟩ := Option.map_eq_some_iff.mp found
    exact agree id _ (mem_minted_of_subset mem_filled (mem_of_mem_head? head)) key
      ((mem_minted heap).mpr ⟨new, placed, mints⟩)
  · have sameKey : ∀ id key, (heap new).key id = some key →
        ∀ other ∈ minted heap (front ++ none :: back) id, other = key := by
      intro id key mints other member
      obtain ⟨first, head⟩ : ∃ first, (minted heap (front ++ none :: back) id).head? = some first :=
        Option.isSome_iff_exists.mp (by rw [isSome_head?]; exact ne_nil_of_mem member)
      rw [settled.agree id other member first (mem_of_mem_head? head)]
      refine fits id key mints first ?_
      rw [settled.keys id, summary, head]
      rfl
    refine .inr ⟨(entered, enterProviders working.2 (position front.length) (heap new)),
      by rw [succeeds]; rfl, fun id first inFirst second inSecond => ?_, fun id => ?_, fun id => ?_⟩
    · have members : ∀ key ∈ minted heap (front ++ some new :: back) id,
          key ∈ minted heap (front ++ none :: back) id ∨ (heap new).key id = some key := by
        intro key member
        rw [split, bind_some, mem_append, mem_append, mem_toList] at member
        rw [free, mem_append]
        exact member.elim (.inl ∘ .inl) fun later => later.symm.imp_left .inr
      rcases members first inFirst with firstHeld | firstNew <;>
        rcases members second inSecond with secondHeld | secondNew
      · exact settled.agree id first firstHeld second secondHeld
      · exact sameKey id second secondNew first firstHeld
      · exact (sameKey id first firstNew second secondHeld).symm
      · exact Option.some.inj (firstNew.symm.trans secondNew)
    · dsimp only
      rw [counted id, settled.keys id, free, split, bind_some]
      cases mints : (heap new).key id with
      | none => rfl
      | some key =>
        have total : (minted heap front id ++ minted heap back id).length + 1 < 2 ^ 32 := by
          have inFront := length_minted heap front id
          have inBack := length_minted heap back id
          rw [length_append, length_cons] at few
          rw [length_append]
          omega
        exact (summary_add (free id ▸ sameKey id key mints) total).symm
    · dsimp only
      rw [lookup_enterProviders, settled.providers id, position_eq few, rows none, rows (some new)]
      change (if provides heap id (some new) = true then _ else _) = _
      split
      · rw [Nat.zero_add]
        refine (congrArg some (addPosition_ofPositions (below_place id) (above_place id))).trans ?_
        exact (if_neg (append_ne_nil_of_right_ne_nil _ (cons_ne_nil _ _))).symm
      · rfl

end

section

variable {heap} {working : Working S Q} (slot : ℕ × Option ℕ × ℕ → Option ℕ)

def placed (changed : List (ℕ × Option ℕ × ℕ)) (slots : List (Option ℕ)) : List (Option ℕ) :=
  changed.foldl (fun slots change => slots.set change.1 (slot change)) slots

variable (changed : List (ℕ × Option ℕ × ℕ)) (slots : List (Option ℕ))

private theorem placed_cons (change : ℕ × Option ℕ × ℕ) :
    placed slot (change :: changed) slots = placed slot changed (slots.set change.1 (slot change)) :=
  rfl

theorem length_placed : (placed slot changed slots).length = slots.length := by
  induction changed generalizing slots with
  | nil => rfl
  | cons change changed ih => rw [placed_cons, ih, length_set]

variable {changed}

theorem getElem_placed_of_notMem {place : ℕ} (apart : place ∉ changed.map Prod.fst) :
    (placed slot changed slots)[place]? = slots[place]? := by
  induction changed generalizing slots with
  | nil => rfl
  | cons change changed ih =>
    rw [map_cons, mem_cons, not_or] at apart
    rw [placed_cons, ih _ apart.2, getElem?_set_ne (Ne.symm apart.1)]

variable {slots}

theorem getElem_placed_of_mem (distinct : (changed.map Prod.fst).Nodup) {change : ℕ × Option ℕ × ℕ}
    (member : change ∈ changed) (within : change.1 < slots.length) :
    (placed slot changed slots)[change.1]? = some (slot change) := by
  induction changed generalizing slots with
  | nil => exact nomatch member
  | cons first changed ih =>
    obtain ⟨apart, rest⟩ := nodup_cons.mp distinct
    rw [placed_cons]
    rcases mem_cons.mp member with rfl | later
    · rw [getElem_placed_of_notMem slot _ apart, getElem?_set_self within]
    · exact ih rest later (by rwa [length_set])

private theorem mem_placed (free : ∀ change ∈ changed, slots[change.1]? = some none) {output : ℕ}
    (member : some output ∈ slots) : some output ∈ placed slot changed slots := by
  obtain ⟨place, found⟩ := mem_iff_getElem?.mp member
  refine mem_iff_getElem?.mpr ⟨place, ?_⟩
  rw [getElem_placed_of_notMem slot, found]
  intro changes
  obtain ⟨change, inside, rfl⟩ := mem_map.mp changes
  rw [free change inside] at found
  exact nomatch found

private theorem split_set {place : ℕ} {slot : Option ℕ} (held : slots[place]? = some slot)
    (replacement : Option ℕ) : ∃ front back, slots = front ++ slot :: back ∧ front.length = place ∧
      slots.set place replacement = front ++ replacement :: back := by
  obtain ⟨within, rfl⟩ := List.getElem?_eq_some_iff.mp held
  exact List.exists_of_set within

variable (distinct : (changed.map Prod.fst).Nodup) (few : slots.length < 2 ^ 32)
  (settled : Settled heap slots working)
include distinct few settled

theorem settled_leaves (held : ∀ change ∈ changed, slots[change.1]? = some change.2.1) :
    Settled heap (placed (fun _ => none) changed slots)
      (changed.foldl (leavePlace heap) working) := by
  induction changed generalizing slots working with
  | nil => exact settled
  | cons change changed ih =>
    obtain ⟨place, old, new⟩ := change
    obtain ⟨apart, rest⟩ := nodup_cons.mp distinct
    have here : slots[place]? = some old := held _ mem_cons_self
    have step : Settled heap (slots.set place none)
        (leavePlace heap working (place, old, new)) := by
      obtain ⟨front, back, parts, length, replaced⟩ := split_set here none
      rw [replaced]
      cases old with
      | none =>
        rw [parts] at settled
        exact settled
      | some old =>
        rw [parts] at settled few
        rw [← length]
        exact settled_leave settled few
    refine ih rest (by rwa [length_set]) step fun other member => ?_
    have differ : place ≠ other.1 := fun same =>
      apart (mem_map.mpr ⟨other, member, same.symm⟩)
    rw [getElem?_set_ne differ]
    exact held other (mem_cons_of_mem _ member)

variable [DecidableEq Q]

theorem settled_enters (free : ∀ change ∈ changed, slots[change.1]? = some none) :
    (∃ id, changed.foldlM (enterPlace heap) working = .error id ∧
        ¬Agree heap (placed (fun change => some change.2.2) changed slots)) ∨
      ∃ entered, changed.foldlM (enterPlace heap) working = .ok entered ∧
        Settled heap (placed (fun change => some change.2.2) changed slots) entered := by
  induction changed generalizing slots working with
  | nil => exact .inr ⟨working, rfl, settled⟩
  | cons change changed ih =>
    obtain ⟨place, old, new⟩ := change
    obtain ⟨apart, rest⟩ := nodup_cons.mp distinct
    have here : slots[place]? = some none := free _ mem_cons_self
    obtain ⟨front, back, parts, length, replaced⟩ := split_set here (some new)
    have freeLater : ∀ other ∈ changed, (slots.set place (some new))[other.1]? = some none := by
      intro other member
      have differ : place ≠ other.1 := fun same =>
        apart (mem_map.mpr ⟨other, member, same.symm⟩)
      rw [getElem?_set_ne differ]
      exact free other (mem_cons_of_mem _ member)
    rw [foldlM_cons, placed_cons]
    rcases settled_enter old new (parts ▸ settled) (parts ▸ few) with
      ⟨id, fails, clash⟩ | ⟨entered, succeeds, next⟩
    · rw [← length, fails]
      refine .inl ⟨id, rfl, fun agree => clash (agree.of_subset fun output member => ?_)⟩
      rw [length]
      exact mem_placed _ freeLater (replaced ▸ member)
    · rw [← length, succeeds, length]
      rw [← replaced] at next
      exact ih rest (by rwa [length_set]) next freeLater

end

end SolidChecker.Passes.Merged
