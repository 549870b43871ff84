/- source: typefacts/src/v3.rs, typefacts/src/producer/compact.rs -/

import SolidChecker.Producer.CompactDemands

namespace SolidChecker.Producer

open Foundation Foundation.Codec List

section

def Location.Spanned (location : Location) : Prop :=
  location.startByte ≤ location.endByte ∧ location.endByte < 2 ^ 64

def EntityDemand.Spanned (demand : WireDemand) : Prop :=
  demand.location.Spanned ∧ ∀ query ∈ demand.queryLocation, query.Spanned

def EntityDemand.Known (strings : List Path) (demand : WireDemand) : Prop :=
  demand.location.path ∈ strings ∧ ∀ query ∈ demand.queryLocation, query.path ∈ strings

def rowBytes (strings : List Path) (previousStart : ℕ) (demand : WireDemand) : Bytes :=
  rowHead previousStart demand ++
    match demand.queryLocation with
    | none => []
    | some query => queryBytes (placeOf strings query.path) query

def packedOf (strings : List Path) (demand : WireDemand) : PackedRow where
  flags := flags (demandFields demand)
  start := demand.location.startByte
  length := demand.location.endByte - demand.location.startByte
  query := demand.queryLocation.map fun query =>
    (placeOf strings query.path, query.startByte, query.endByte - query.startByte)

private theorem plainDemand_flags (demand : WireDemand) (location : Location) :
    plainDemand location (flags (demandFields demand)) =
      { demand with location, queryLocation := none } := by
  obtain ⟨_, _, _, kinds⟩ := demand
  cases kinds
  simp only [plainDemand, testBit_flags]
  simp [demandFields, demandFlagAsync]

private theorem flags_demandFields_lt (demand : WireDemand) : flags (demandFields demand) < 2 ^ 21 := by
  apply flags_lt
  simp [demandFields, demandFlagAsync]

variable {demand : WireDemand} {strings : List Path}

private theorem rowToDemand_packedOf (known : demand.Known strings) (spanned : demand.Spanned) :
    rowToDemand demand.location.path strings (packedOf strings demand) = .ok demand := by
  obtain ⟨location, query, wantsAsync, kinds⟩ := demand
  have whole : ⟨location.path, location.startByte, location.startByte +
      (location.endByte - location.startByte)⟩ = location := by
    rw [Nat.add_sub_cancel' spanned.1.1]
  unfold rowToDemand packedOf
  dsimp only
  rw [whole, plainDemand_flags]
  cases query with
  | none => rfl
  | some query =>
    have found : strings[placeOf strings query.path]? = some query.path :=
      getElem_placeOf (known.2 query rfl)
    have queryWhole : ⟨query.path, query.startByte, query.startByte +
        (query.endByte - query.startByte)⟩ = query := by
      rw [Nat.add_sub_cancel' (spanned.2 query rfl).1]
    simp only [Option.map_some, lookup, found]
    exact congrArg (fun query => Except.ok (⟨location, some query, wantsAsync, kinds⟩ :
      WireDemand)) queryWhole

private theorem reads_takeUvarint (value : ℕ) : Reads (value < 2 ^ 64) takeUvarint (uvarint value) value :=
  reads_uvarint _ value

private theorem header_bits (demand : WireDemand) :
    let header := 2 * flags (demandFields demand) + if demand.queryLocation.isSome then 1 else 0
    header < 2 ^ 64 ∧ header / 2 = flags (demandFields demand) ∧
      (header % 2 = 1 ↔ demand.queryLocation.isSome) := by
  have narrow := flags_demandFields_lt demand
  intro header
  dsimp only [header]
  cases demand.queryLocation with
  | none =>
    simp only [Option.isSome_none, Bool.false_eq_true, if_false, iff_false]
    omega
  | some query =>
    simp only [Option.isSome_some, if_true, iff_true]
    omega

variable {previousStart : ℕ}

private theorem reads_rowHead {β : Type} {ok : Prop}
    {next : ℕ → ℕ → ℕ → Reader β} {more : Bytes} {result : β} (spanned : demand.Spanned)
    (tail : Reads ok (next
      (2 * flags (demandFields demand) + if demand.queryLocation.isSome then 1 else 0)
      (demand.location.startByte - previousStart)
      (demand.location.endByte - demand.location.startByte)) more result) :
    Reads ok (do
      let header ← takeUvarint
      let startDelta ← takeUvarint
      let length ← takeUvarint
      next header startDelta length) (rowHead previousStart demand ++ more) result := by
  obtain ⟨⟨rising, bounded⟩, -⟩ := spanned
  rw [rowHead, append_assoc, append_assoc]
  refine (reads_takeUvarint _).bind (fun _ => (header_bits demand).1) ?_
  refine (reads_takeUvarint _).bind (fun _ => by omega) ?_
  exact (reads_takeUvarint _).bind (fun _ => by omega) tail

private theorem reads_packedQuery {query : Location} (few : strings.length < 2 ^ 64)
    (known : query.path ∈ strings) (spanned : query.Spanned) :
    Reads True packedQuery (queryBytes (placeOf strings query.path) query)
      (placeOf strings query.path, query.startByte, query.endByte - query.startByte) := by
  have place := placeOf_lt known
  obtain ⟨rising, bounded⟩ := spanned
  refine (reads_takeUvarint _).bind (fun _ => place.trans few) ?_
  refine (reads_takeUvarint _).bind (fun _ => by omega) ?_
  refine (reads_takeUvarint _).last (fun _ => by omega) ?_
  refine (reads_refuseIf _ _).check (fun _ => ?_) (.pure _)
  rw [Nat.add_sub_cancel' rising]
  omega

private theorem reads_packedRow (few : strings.length < 2 ^ 64)
    (known : demand.Known strings) (spanned : demand.Spanned)
    (rises : previousStart ≤ demand.location.startByte) :
    Reads True (packedRow previousStart) (rowBytes strings previousStart demand)
      (packedOf strings demand) := by
  obtain ⟨-, half, odd⟩ := header_bits demand
  have start : previousStart + (demand.location.startByte - previousStart) =
      demand.location.startByte := Nat.add_sub_cancel' rises
  have stop : demand.location.startByte + (demand.location.endByte - demand.location.startByte) =
      demand.location.endByte := Nat.add_sub_cancel' spanned.1.1
  have bounded := spanned.1.2
  have rising := spanned.1.1
  refine reads_rowHead spanned ?_
  dsimp only
  rw [start, stop, half]
  refine (reads_refuseIf _ _).check (fun _ => by omega) ?_
  refine (reads_refuseIf _ _).check (fun _ => by omega) ?_
  unfold packedOf
  cases asked : demand.queryLocation with
  | none =>
    rw [asked] at odd
    rw [if_neg (mt odd.mp Bool.false_ne_true)]
    exact .pure _
  | some query =>
    rw [asked] at odd
    rw [if_pos (odd.mpr rfl)]
    exact (reads_packedQuery few (known.2 query asked) (spanned.2 query asked)).last
      (fun given => given) (.pure _)

private theorem reads_rowShape (previousStart : ℕ) (few : strings.length < 2 ^ 64)
    (known : demand.Known strings) (spanned : demand.Spanned) :
    Reads True rowShape (rowBytes strings previousStart demand) demand.queryLocation.isSome := by
  obtain ⟨-, -, odd⟩ := header_bits demand
  refine reads_rowHead spanned ?_
  cases asked : demand.queryLocation with
  | none =>
    rw [asked] at odd
    rw [if_neg (mt odd.mp Bool.false_ne_true)]
    exact .pure _
  | some query =>
    have place := placeOf_lt (known.2 query asked)
    obtain ⟨rising, bounded⟩ := spanned.2 query asked
    rw [asked] at odd
    rw [if_pos (odd.mpr rfl)]
    refine (reads_takeUvarint _).bind (fun _ => place.trans few) ?_
    refine (reads_takeUvarint _).bind (fun _ => by omega) ?_
    exact (reads_takeUvarint _).last (fun _ => by omega) (.pure _)

end

section

abbrev stretchBytes (strings : List Path) (start : ℕ) (stretch : List WireDemand) : Bytes :=
  written (rowBytes strings) (fun _ demand => demand.location.startByte) start stretch

private theorem stretchBytes_cons (strings : List Path) (start : ℕ) (demand : WireDemand)
    (stretch : List WireDemand) : stretchBytes strings start (demand :: stretch) =
      rowBytes strings start demand ++ stretchBytes strings demand.location.startByte stretch :=
  rfl

def groupOf (strings : List Path) (stretch : List WireDemand) : ℕ × Bytes :=
  (match stretch with
    | [] => 0
    | demand :: _ => placeOf strings demand.location.path,
    written (rowBytes strings) (fun _ demand => demand.location.startByte) 0 stretch)

def linked (earlier later : WireDemand) : Bool :=
  decide (earlier.location.path = later.location.path ∧
    earlier.location.startByte ≤ later.location.startByte)

private theorem written_append {σ ι : Type} (write : σ → ι → Bytes) (next : σ → ι → σ) (state : σ)
    (items more : List ι) : written write next state (items ++ more) =
      written write next state items ++ written write next (items.foldl next state) more := by
  induction items generalizing state with
  | nil => rfl
  | cons item items ih =>
    rw [cons_append, written, written, ih, append_assoc]
    rfl

variable {strings grown : List Path} {demand : WireDemand} (longer : strings <+: grown)
include longer

private theorem rowBytes_mono (known : demand.Known strings) (previousStart : ℕ) :
    rowBytes grown previousStart demand = rowBytes strings previousStart demand := by
  unfold rowBytes
  cases asked : demand.queryLocation with
  | none => rfl
  | some query =>
    dsimp only
    rw [placeOf_of_isPrefix longer (known.2 query asked)]

private theorem EntityDemand.Known.mono (known : demand.Known strings) : demand.Known grown :=
  ⟨longer.subset known.1, fun query asked => longer.subset (known.2 query asked)⟩

variable {stretch : List WireDemand}

private theorem groupOf_mono
    (known : ∀ demand ∈ stretch, demand.Known strings) : groupOf grown stretch = groupOf strings stretch := by
  have rows (state : ℕ) : stretchBytes grown state stretch = stretchBytes strings state stretch := by
    induction stretch generalizing state with
    | nil => rfl
    | cons demand stretch ih =>
      rw [stretchBytes_cons, stretchBytes_cons, rowBytes_mono longer (known demand mem_cons_self),
        ih fun other member => known other (mem_cons_of_mem demand member)]
  change (_, stretchBytes grown 0 stretch) = (_, stretchBytes strings 0 stretch)
  rw [rows]
  cases stretch with
  | nil => rfl
  | cons demand stretch =>
    dsimp only
    rw [placeOf_of_isPrefix longer (known demand mem_cons_self).1]

omit longer

private theorem groupOf_concat (strings : List Path) (stretch : List WireDemand) (last demand : WireDemand) :
    groupOf strings (stretch ++ [last] ++ [demand]) =
      ((groupOf strings (stretch ++ [last])).1, (groupOf strings (stretch ++ [last])).2 ++
        rowBytes strings last.location.startByte demand) := by
  have place : (groupOf strings (stretch ++ [last] ++ [demand])).1 =
      (groupOf strings (stretch ++ [last])).1 := by
    cases stretch <;> rfl
  have bytes : (groupOf strings (stretch ++ [last] ++ [demand])).2 =
      (groupOf strings (stretch ++ [last])).2 ++
        rowBytes strings last.location.startByte demand := by
    unfold groupOf
    dsimp only
    rw [written_append _ _ _ (stretch ++ [last]), foldl_append]
    simp only [foldl_cons, foldl_nil, written, append_nil]
  exact Prod.ext place bytes

private theorem groupOf_place (strings : List Path) {last : WireDemand}
    (onePath : ∀ demand ∈ stretch, demand.location.path = last.location.path) :
    (groupOf strings (stretch ++ [last])).1 = placeOf strings last.location.path := by
  cases stretch with
  | nil => rfl
  | cons demand stretch =>
    rw [← onePath demand mem_cons_self]
    rfl

end

section

variable (strings : List Path) (demand : WireDemand)

def stringsAfter : List Path :=
  let strings := (intern strings demand.location.path).2
  match demand.queryLocation with
  | none => strings
  | some query => (intern strings query.path).2

private theorem isPrefix_stringsAfter :
    (intern strings demand.location.path).2 <+: stringsAfter strings demand := by
  unfold stringsAfter
  cases demand.queryLocation with
  | none => exact prefix_refl _
  | some query => exact isPrefix_intern _ query.path

private theorem isPrefix_grown : strings <+: stringsAfter strings demand :=
  (isPrefix_intern _ _).trans (isPrefix_stringsAfter strings demand)

private theorem known_stringsAfter : demand.Known (stringsAfter strings demand) := by
  refine ⟨(isPrefix_stringsAfter strings demand).subset (mem_intern _ _), fun query asked => ?_⟩
  unfold stringsAfter
  rw [Option.mem_def] at asked
  rw [asked]
  exact mem_intern _ _

private theorem length_stringsAfter : (stringsAfter strings demand).length ≤ strings.length + 2 := by
  unfold stringsAfter
  cases demand.queryLocation with
  | none => exact (length_intern _ _).trans (Nat.le_succ _)
  | some query =>
    have first := length_intern strings demand.location.path
    have second := length_intern (intern strings demand.location.path).2 query.path
    dsimp only
    omega

private theorem push_strings (packing : Packing) (demand : WireDemand) :
    (packing.push demand).strings = stringsAfter packing.strings demand := by
  have appended (packing : Packing) (bytes : Bytes) :
      (packing.append bytes).strings = packing.strings := by
    unfold Packing.append
    split <;> rfl
  have opened (packing : Packing) (path start : ℕ) :
      (packing.openGroup path start).strings = packing.strings := by
    unfold Packing.openGroup
    split
    · rfl
    · split <;> rfl
  unfold Packing.push stringsAfter
  cases demand.queryLocation <;> simp only [appended, opened]

def Packing.Opens (packing : Packing) (groups : List (ℕ × Bytes)) (previousStart : ℕ) : Prop :=
  let interned := (intern packing.strings demand.location.path).2
  Packing.openGroup { packing with strings := interned }
    (placeOf (stringsAfter packing.strings demand) demand.location.path)
    demand.location.startByte = ⟨interned, groups, previousStart⟩

private theorem push_eq (packing : Packing) {previousStart : ℕ} {group : ℕ × Bytes}
    {groups : List (ℕ × Bytes)} (opened : packing.Opens demand (group :: groups) previousStart) :
    packing.push demand = ⟨stringsAfter packing.strings demand, (group.1, group.2 ++
      rowBytes (stringsAfter packing.strings demand) previousStart demand) :: groups,
        demand.location.startByte⟩ := by
  rw [Packing.Opens, placeOf_of_isPrefix (isPrefix_stringsAfter _ _) (mem_intern _ _),
    ← intern_place] at opened
  unfold Packing.push
  dsimp only
  rw [opened]
  unfold rowBytes stringsAfter Packing.append
  cases demand.queryLocation with
  | none =>
    dsimp only
    rw [append_nil]
  | some query =>
    dsimp only
    rw [intern_place, append_assoc]

structure Packing.Holds (packing : Packing) (closed : List (List WireDemand))
    (current : List WireDemand) (last : WireDemand) : Prop where
  groups : packing.groups = groupOf packing.strings (current ++ [last]) ::
    closed.map (groupOf packing.strings)
  start : packing.previousStart = last.location.startByte
  known : ∀ stretch ∈ (current ++ [last]) :: closed, ∀ demand ∈ stretch,
    demand.Known packing.strings
  onePath : ∀ demand ∈ current, demand.location.path = last.location.path

private theorem push_first (previousStart : ℕ) (demand : WireDemand) :
    (Packing.push ⟨strings, [], previousStart⟩ demand).Holds [] [] demand := by
  rw [push_eq demand ⟨strings, [], previousStart⟩ rfl]
  refine ⟨?_, rfl, ?_, ?_⟩
  · simp only [groupOf, written, nil_append, append_nil, map_nil]
  · intro stretch member other inside
    rw [mem_singleton.mp member, nil_append] at inside
    rw [mem_singleton.mp inside]
    exact known_stringsAfter strings demand
  · exact forall_mem_nil _

variable {closed : List (List WireDemand)} {current : List WireDemand} {last : WireDemand}
    {packing : Packing} (holds : packing.Holds closed current last)
include holds

private theorem Packing.Holds.known_grown : ∀ stretch ∈ (current ++ [last]) :: closed, ∀ other ∈ stretch,
      other.Known (stringsAfter packing.strings demand) :=
  fun stretch member other inside => (holds.known stretch member other inside).mono
    (isPrefix_grown packing.strings demand)

private theorem Packing.Holds.groups_grown :
    packing.groups = groupOf (stringsAfter packing.strings demand) (current ++ [last]) ::
      closed.map (groupOf (stringsAfter packing.strings demand)) := by
  have longer := isPrefix_grown packing.strings demand
  rw [holds.groups, groupOf_mono longer (holds.known _ mem_cons_self)]
  congr 1
  refine map_congr_left fun stretch member => ?_
  exact (groupOf_mono longer (holds.known stretch (mem_cons_of_mem _ member))).symm

variable {demand}

private theorem push_linked (links : linked last demand) :
    (packing.push demand).Holds closed (current ++ [last]) demand := by
  obtain ⟨same, rises⟩ := of_decide_eq_true links
  have opened : packing.Opens demand packing.groups last.location.startByte := by
    unfold Packing.Opens Packing.openGroup
    rw [holds.groups_grown demand, holds.start]
    dsimp only
    rw [if_neg]
    rintro (differ | before)
    · exact differ (same ▸ groupOf_place _ holds.onePath)
    · omega
  rw [holds.groups_grown demand] at opened
  rw [push_eq demand packing opened]
  refine ⟨?_, rfl, ?_, ?_⟩
  · rw [groupOf_concat]
  · intro stretch member other inside
    have known := holds.known_grown demand
    rcases mem_cons.mp member with rfl | earlier
    · rcases mem_append.mp inside with before | now
      · exact known _ mem_cons_self other before
      · rw [mem_singleton.mp now]
        exact known_stringsAfter packing.strings demand
    · exact known stretch (mem_cons_of_mem _ earlier) other inside
  · intro other member
    rcases mem_append.mp member with before | now
    · exact (holds.onePath other before).trans same
    · rw [mem_singleton.mp now]
      exact same

private theorem push_unlinked (apart : linked last demand = false) :
    (packing.push demand).Holds ((current ++ [last]) :: closed) [] demand := by
  have known := holds.known_grown demand
  have breaks : (groupOf (stringsAfter packing.strings demand) (current ++ [last])).1 ≠
        placeOf (stringsAfter packing.strings demand) demand.location.path ∨
      demand.location.startByte < last.location.startByte := by
    by_cases same : last.location.path = demand.location.path
    · refine .inr (not_le.mp fun rises => ?_)
      exact of_decide_eq_false apart ⟨same, rises⟩
    · refine .inl ?_
      rw [groupOf_place _ holds.onePath]
      have lastKnown := known _ mem_cons_self last (mem_append_right current mem_cons_self)
      exact mt (placeOf_inj lastKnown.1 (known_stringsAfter packing.strings demand).1).mp same
  have opened : packing.Opens demand
      ((placeOf (stringsAfter packing.strings demand) demand.location.path, []) ::
        ((current ++ [last]) :: closed).map (groupOf (stringsAfter packing.strings demand))) 0 := by
    unfold Packing.Opens Packing.openGroup
    rw [holds.groups_grown demand, holds.start]
    dsimp only
    rw [if_pos breaks]
    rfl
  rw [push_eq demand packing opened]
  refine ⟨?_, rfl, ?_, forall_mem_nil _⟩
  · simp only [groupOf, written, nil_append, append_nil]
  · intro stretch member other inside
    rcases mem_cons.mp member with rfl | earlier
    · rw [nil_append] at inside
      rw [mem_singleton.mp inside]
      exact known_stringsAfter packing.strings demand
    · exact known stretch earlier other inside

private theorem foldl_push (demands : List WireDemand) :
    ∃ strings, (demands.foldl Packing.push packing).strings = strings ∧
      (demands.foldl Packing.push packing).groups.reverse =
        (List.splitBy.loop linked demands last current.reverse closed).map (groupOf strings) ∧
      ∀ stretch ∈ List.splitBy.loop linked demands last current.reverse closed, ∀ demand ∈ stretch,
        demand.Known strings := by
  induction demands generalizing packing closed current last with
  | nil =>
    have same : List.splitBy.loop linked [] last current.reverse closed =
        ((current ++ [last]) :: closed).reverse := by
      rw [List.splitBy.loop, reverse_cons (a := last), reverse_reverse]
    refine ⟨packing.strings, rfl, ?_, fun stretch member => ?_⟩
    · rw [same, foldl_nil, holds.groups, map_reverse]
      rfl
    · rw [same, mem_reverse] at member
      exact holds.known stretch member
  | cons demand demands ih =>
    rw [foldl_cons, List.splitBy.loop]
    cases links : linked last demand with
    | true =>
      have next := ih (push_linked holds links)
      rw [reverse_append] at next
      exact next
    | false =>
      have next := ih (push_unlinked holds links)
      rw [reverse_nil] at next
      rw [reverse_cons (a := last), reverse_reverse]
      exact next

omit holds

theorem compactDemands_groups (demands : List WireDemand) : (compactDemands demands).groups =
        (demands.splitBy linked).map (groupOf (compactDemands demands).strings) ∧
      ∀ stretch ∈ demands.splitBy linked, ∀ demand ∈ stretch,
        demand.Known (compactDemands demands).strings := by
  cases demands with
  | nil => exact ⟨rfl, forall_mem_nil _⟩
  | cons demand demands =>
    obtain ⟨strings, rfl, groups, known⟩ := foldl_push (push_first [[]] 0 demand) demands
    exact ⟨groups, known⟩

private theorem compactDemands_strings (demands : List WireDemand) :
    (compactDemands demands).strings.length ≤ 2 * demands.length + 1 := by
  have grows (demands : List WireDemand) (packing : Packing) :
      (demands.foldl .push packing).strings.length ≤
        packing.strings.length + 2 * demands.length := by
    induction demands generalizing packing with
    | nil => exact le_refl _
    | cons demand demands ih =>
      have pushed := push_strings packing demand
      have step := length_stringsAfter packing.strings demand
      have rest := ih (packing.push demand)
      rw [pushed] at rest
      rw [foldl_cons, length_cons]
      omega
  have all := grows demands ⟨[[]], [], 0⟩
  rw [length_singleton] at all
  unfold compactDemands
  dsimp only
  omega

theorem compactDemands_short {demands : List WireDemand} (few : demands.length < 2 ^ 62) :
    (compactDemands demands).strings.length < 2 ^ 64 := by
  have bound := compactDemands_strings demands
  omega

end

section

variable {strings : List Path}

/-- Demands of one path with machine bounds and rising starts, all their paths in the table. -/
structure Stretch (strings : List Path) (path : Path) (previousStart : ℕ)
    (demands : List WireDemand) : Prop where
  known : ∀ demand ∈ demands, demand.Known strings
  spanned : ∀ demand ∈ demands, demand.Spanned
  within : ∀ demand ∈ demands, demand.location.path = path
  above : ∀ demand ∈ demands, previousStart ≤ demand.location.startByte
  rising : demands.Pairwise fun earlier later =>
    earlier.location.startByte ≤ later.location.startByte

variable {demands : List WireDemand} {path : Path} {previousStart : ℕ} {bound : ℕ}

private theorem Stretch.tail {demand : WireDemand}
    (stretch : Stretch strings path previousStart (demand :: demands)) :
    Stretch strings path demand.location.startByte demands where
  known := fun other member => stretch.known other (mem_cons_of_mem demand member)
  spanned := fun other member => stretch.spanned other (mem_cons_of_mem demand member)
  within := fun other member => stretch.within other (mem_cons_of_mem demand member)
  above := (pairwise_cons.mp stretch.rising).1
  rising := (pairwise_cons.mp stretch.rising).2

private theorem rowBytes_ne_nil (previousStart : ℕ) (demand : WireDemand) (more : Bytes) :
    rowBytes strings previousStart demand ++ more ≠ [] := by
  intro empty
  have front := (append_eq_nil_iff.mp (append_eq_nil_iff.mp empty).1).1
  have header := (append_eq_nil_iff.mp front).1
  revert header
  generalize (2 * flags (demandFields demand) + if demand.queryLocation.isSome then 1 else 0) = value
  unfold uvarint
  cases value with
  | zero => exact nofun
  | succ value =>
    unfold uvarintIn
    split <;> exact nofun

section

variable (few : strings.length < 2 ^ 64) (stretch : Stretch strings path previousStart demands)
  (enough : demands.length ≤ bound)
include few stretch enough

private theorem visitRows_stretch :
    visitRows (fun row => (rowToDemand path strings row).map fun demand => [demand]) bound
      previousStart (stretchBytes strings previousStart demands) = .ok demands := by
  induction demands generalizing previousStart bound with
  | nil => cases bound <;> rfl
  | cons demand demands ih =>
    obtain ⟨bound, rfl⟩ := Nat.exists_eq_succ_of_ne_zero (Nat.ne_zero_of_lt enough)
    have known := stretch.known demand mem_cons_self
    have spanned := stretch.spanned demand mem_cons_self
    have row := (reads_packedRow few known spanned
      (stretch.above demand mem_cons_self)).accepts trivial
    have back := rowToDemand_packedOf known spanned
    rw [stretch.within demand mem_cons_self] at back
    rw [stretchBytes_cons, visitRows.eq_3 _ _ _ _ (rowBytes_ne_nil _ _ _), row]
    have later := ih stretch.tail (Nat.le_of_succ_le_succ enough)
    change (do
      let visited ← (rowToDemand path strings (packedOf strings demand)).map fun demand => [demand]
      let later ← visitRows (fun row => (rowToDemand path strings row).map fun demand => [demand])
        bound demand.location.startByte (stretchBytes strings demand.location.startByte demands)
      pure (visited ++ later)) = .ok (demand :: demands)
    rw [back, later]
    rfl

private theorem shapeRows_stretch :
    ∃ counts, shapeRows bound (stretchBytes strings previousStart demands) = .ok counts := by
  induction demands generalizing previousStart bound with
  | nil => exact ⟨(0, 0), by cases bound <;> rfl⟩
  | cons demand demands ih =>
    obtain ⟨bound, rfl⟩ := Nat.exists_eq_succ_of_ne_zero (Nat.ne_zero_of_lt enough)
    have row := (reads_rowShape previousStart few (stretch.known demand mem_cons_self)
      (stretch.spanned demand mem_cons_self)).accepts trivial
    obtain ⟨counts, later⟩ := ih stretch.tail (Nat.le_of_succ_le_succ enough)
    rw [stretchBytes_cons, shapeRows.eq_3 _ _ (rowBytes_ne_nil _ _ _), row]
    refine ⟨(counts.1 + 1, counts.2 + if demand.queryLocation.isSome then 1 else 0), ?_⟩
    change (do
      let counts ← shapeRows bound _
      pure (counts.1 + 1, counts.2 + if demand.queryLocation.isSome then 1 else 0)) = _
    rw [later]
    rfl

end

private theorem length_le_written (previousStart : ℕ) (demands : List WireDemand) :
    demands.length ≤ (stretchBytes strings previousStart demands).length := by
  induction demands generalizing previousStart with
  | nil => exact Nat.zero_le _
  | cons demand demands ih =>
    have row : 0 < (rowBytes strings previousStart demand ++ []).length :=
      length_pos_iff.mpr (rowBytes_ne_nil previousStart demand [])
    have later := ih demand.location.startByte
    rw [append_nil] at row
    rw [stretchBytes_cons, length_append, length_cons]
    omega

variable (few : strings.length < 2 ^ 64)
  (stretch : Stretch strings path 0 demands) (filled : demands ≠ [])
include few stretch filled

omit few in
private theorem lookup_groupOf : lookup strings (groupOf strings demands).1 = .ok path := by
  cases demands with
  | nil => exact absurd rfl filled
  | cons demand demands =>
    have found := getElem_placeOf (stretch.known demand mem_cons_self).1
    rw [stretch.within demand mem_cons_self] at found
    unfold lookup groupOf
    dsimp only
    rw [stretch.within demand mem_cons_self, found]

omit filled in
theorem shape_groupOf (place : ℕ) :
    ∃ counts, compactDemandShape [(place, (groupOf strings demands).2)] = .ok counts := by
  obtain ⟨counts, shaped⟩ := shapeRows_stretch few stretch (length_le_written 0 demands)
  refine ⟨(counts.1 + 0, counts.2 + 0), ?_⟩
  rw [compactDemandShape]
  unfold groupOf
  dsimp only
  rw [shaped]
  rfl

private theorem visitGroup_groupOf : visitGroup strings (groupOf strings demands)
      (fun row => (rowToDemand path strings row).map fun demand => [demand]) = .ok demands := by
  rw [visitGroup, lookup_groupOf stretch filled]
  exact visitRows_stretch few stretch (length_le_written 0 demands)

theorem expandCompactGroup_groupOf :
    expandCompactGroup (groupOf strings demands) strings = .ok demands := by
  obtain ⟨counts, shaped⟩ := shape_groupOf few stretch (groupOf strings demands).1
  rw [expandCompactGroup, shaped, lookup_groupOf stretch filled]
  exact visitGroup_groupOf few stretch filled

end

section

theorem stretch_of_mem {demands stretch : List WireDemand}
    (spanned : ∀ demand ∈ demands, demand.Spanned) (member : stretch ∈ demands.splitBy linked) :
    ∃ path, stretch ≠ [] ∧ Stretch (compactDemands demands).strings path 0 stretch := by
  obtain ⟨whole, filled, chains, -⟩ := splitBy_eq_iff.mp (rfl : demands.splitBy linked = _)
  have nonempty : stretch ≠ [] := fun empty => filled (empty ▸ member)
  obtain ⟨first, rest, rfl⟩ := exists_cons_of_ne_nil nonempty
  have trans : IsTrans WireDemand fun earlier later => linked earlier later :=
    ⟨fun a b c first second => by
      simp only [linked, decide_eq_true_eq] at first second ⊢
      exact ⟨first.1.trans second.1, first.2.trans second.2⟩⟩
  have pairs := isChain_iff_pairwise.mp (chains _ member)
  refine ⟨first.location.path, nonempty, ?_⟩
  constructor
  · exact (compactDemands_groups demands).2 _ member
  · intro demand inside
    refine spanned demand ?_
    rw [whole]
    exact mem_flatten_of_mem member inside
  · intro demand inside
    rcases mem_cons.mp inside with rfl | later
    · rfl
    · exact (of_decide_eq_true ((pairwise_cons.mp pairs).1 demand later)).1.symm
  · exact fun demand _ => Nat.zero_le _
  · exact pairs.imp fun links => (of_decide_eq_true links).2

private theorem expandGroups_map {strings : List Path} (few : strings.length < 2 ^ 64)
    (stretches : List (List WireDemand))
    (each : ∀ stretch ∈ stretches, ∃ path, stretch ≠ [] ∧ Stretch strings path 0 stretch) :
    (∃ counts, compactDemandShape (stretches.map (groupOf strings)) = .ok counts) ∧
      expandGroups strings (stretches.map (groupOf strings)) = .ok stretches.flatten := by
  induction stretches with
  | nil => exact ⟨⟨(0, 0), rfl⟩, rfl⟩
  | cons stretch stretches ih =>
    obtain ⟨path, filled, holds⟩ := each stretch mem_cons_self
    obtain ⟨⟨counts, shaped⟩, expanded⟩ := ih fun other member =>
      each other (mem_cons_of_mem stretch member)
    obtain ⟨first, firstShaped⟩ := shapeRows_stretch few holds (length_le_written 0 stretch)
    constructor
    · refine ⟨(first.1 + counts.1, first.2 + counts.2), ?_⟩
      rw [map_cons, compactDemandShape, shaped]
      unfold groupOf
      dsimp only
      rw [firstShaped]
      rfl
    · rw [map_cons, expandGroups, lookup_groupOf holds filled, expanded]
      change (do
        let demands ← visitGroup strings (groupOf strings stretch) fun row =>
          (rowToDemand path strings row).map fun demand => [demand]
        let later ← .ok stretches.flatten
        pure (demands ++ later)) = _
      rw [visitGroup_groupOf few holds filled]
      rfl

theorem expandCompactDemands_compactDemands (demands : List WireDemand)
    (spanned : ∀ demand ∈ demands, demand.Spanned) (few : demands.length < 2 ^ 62) :
    expandCompactDemands (compactDemands demands) = .ok demands := by
  obtain ⟨⟨counts, shaped⟩, expanded⟩ := expandGroups_map (compactDemands_short few) (demands.splitBy linked)
    fun stretch member => stretch_of_mem spanned member
  rw [← (compactDemands_groups demands).1] at shaped expanded
  rw [expandCompactDemands, shaped]
  change expandGroups (compactDemands demands).strings (compactDemands demands).groups = _
  rw [expanded, flatten_splitBy]

end

end SolidChecker.Producer
