/- source: typefacts/src/v3.rs, apps/solid-typefacts/src/demands.rs -/

import SolidChecker.Producer.CompactRows
import SolidChecker.Producer.DemandEdits

namespace SolidChecker.Producer

open Foundation Foundation.Codec List

section

variable {K C : Type}

def DemandGroup.contents (codec : Codec K C) (group : DemandGroup K C) :
    Path × Except String (List (EntityDemand K)) := (group.path, group.expanded codec)

private theorem mem_beginRuns (retained : DemandGroups K C) {groups : List (DemandGroup K C)}
    (distinct : (groups.map DemandGroup.path).Nodup) (group : DemandGroup K C) :
    group ∈ (beginRuns retained.list groups [] true).groups ↔ group ∈ groups := by
  rw [(beginRuns_spec retained groups [] true).1, Rows.mem_iff, retained.get_edited]
  simp only [map_nil, not_mem_nil, if_false, if_true, Option.or_none]
  constructor
  · intro found
    exact mem_reverse.mp (mem_of_find?_eq_some found)
  · intro member
    cases found : groups.reverse.find? fun other => decide (other.path = group.path) with
    | none =>
      have absent := find?_eq_none.mp found group (mem_reverse.mpr member)
      exact absurd (decide_eq_true rfl) absent
    | some other =>
      have same : other.path = group.path := by simpa using find?_some found
      have inside := mem_reverse.mp (mem_of_find?_eq_some found)
      exact congrArg some (inj_on_of_nodup_map distinct inside member same)

private theorem contents_beginRuns (codec : Codec K C) (retained : DemandGroups K C)
    {left right : List (DemandGroup K C)} (leftDistinct : (left.map DemandGroup.path).Nodup)
    (rightDistinct : (right.map DemandGroup.path).Nodup) :
    (beginRuns retained.list left [] true).groups.map (DemandGroup.contents codec) =
        (beginRuns retained.list right [] true).groups.map (DemandGroup.contents codec) ↔
      ∀ content, content ∈ left.map (DemandGroup.contents codec) ↔
        content ∈ right.map (DemandGroup.contents codec) := by
  have ordered (groups : List (DemandGroup K C)) :
      ((beginRuns retained.list groups [] true).groups.map (DemandGroup.contents codec)).Pairwise
        fun first second => first.1 < second.1 := by
    rw [(beginRuns_spec retained groups [] true).1, pairwise_map]
    exact (retained.edited groups [] true).ordered
  have member {groups : List (DemandGroup K C)} (distinct : (groups.map DemandGroup.path).Nodup)
      (content : Path × Except String (List (EntityDemand K))) :
      content ∈ (beginRuns retained.list groups [] true).groups.map (DemandGroup.contents codec) ↔
        content ∈ groups.map (DemandGroup.contents codec) := by
    simp only [mem_map, mem_beginRuns retained distinct]
  constructor
  · intro same content
    rw [← member leftDistinct, same, member rightDistinct]
  · intro same
    refine Rows.eq_of_mem_iff (ordered left) (ordered right) fun content => ?_
    rw [member leftDistinct, same, ← member rightDistinct]

end

section

variable {K C : Type}

def demandsAt (demands : List (EntityDemand K)) (path : Path) : List (EntityDemand K) :=
  demands.filter fun demand => decide (demand.location.path.clean = path)

variable {demands : List (EntityDemand K)}

private theorem mem_demandsAt {path : Path} {demand : EntityDemand K} :
    demand ∈ demandsAt demands path ↔ demand ∈ demands ∧ demand.location.path.clean = path := by
  rw [demandsAt, mem_filter, decide_eq_true_eq]

private theorem clean_of_demandsAt {path : Path}
    (filled : demandsAt demands path ≠ []) : path.clean = path := by
  obtain ⟨demand, inside⟩ := exists_mem_of_ne_nil _ filled
  rw [← (mem_demandsAt.mp inside).2, Path.clean_clean]

private theorem strictlyAscending_pairwise {paths : List Path}
    (ascending : strictlyAscending paths) : paths.Pairwise (· < ·) := by
  refine isChain_iff_pairwise.mp ?_
  induction paths with
  | nil => exact .nil
  | cons first later ih =>
    cases later with
    | nil => exact .singleton first
    | cons second later =>
      rw [strictlyAscending, Bool.and_eq_true, decide_eq_true_eq] at ascending
      exact .cons_cons ascending.1 (ih ascending.2)

variable (changes : List (EntityDemand K))

private theorem mem_sessionChangedDemandRuns (run : Path × List (EntityDemand K)) :
    run ∈ sessionChangedDemandRuns changes ↔ run.2 ≠ [] ∧ run.2 = demandsAt changes run.1 := by
  unfold sessionChangedDemandRuns
  dsimp only
  split
  · rename_i ascending
    have rising := strictlyAscending_pairwise ascending
    rw [pairwise_map] at rising
    refine (Grouping.mem_keyed_runs _ (Grouping.sorted_of_runs _ rising) run).trans ?_
    refine and_congr_right fun _ => ?_
    unfold demandsAt
    congr!
  · refine (Grouping.mem_keyed_runs _ (Grouping.sortByKey_sorted _ changes) run).trans ?_
    refine and_congr_right fun _ => ?_
    rw [Grouping.sortByKey_filter]
    unfold demandsAt
    congr!

private theorem sessionChangedDemandRuns_distinct :
    ((sessionChangedDemandRuns changes).map Prod.fst).Nodup := by
  unfold sessionChangedDemandRuns
  dsimp only
  split
  · rename_i ascending
    exact (strictlyAscending_pairwise ascending).imp ne_of_lt
  · have rising := Grouping.keyed_runs_strict _ (Grouping.sortByKey_sorted
      (fun demand : EntityDemand K => demand.location.path.clean) changes)
    exact pairwise_map.mpr (rising.imp ne_of_lt)

def plainGroups (C : Type) (changes : List (EntityDemand K)) : List (DemandGroup K C) :=
  (sessionChangedDemandRuns changes).map fun run => ⟨run.1.clean, .plain (canonicalDemandRun run.2)⟩

private theorem mem_plainGroups (group : DemandGroup K C) :
    group ∈ plainGroups C changes ↔ demandsAt changes group.path ≠ [] ∧
      group.body = .plain (canonicalDemandRun (demandsAt changes group.path)) := by
  unfold plainGroups
  rw [mem_map]
  constructor
  · rintro ⟨run, member, rfl⟩
    obtain ⟨filled, whole⟩ := (mem_sessionChangedDemandRuns changes run).mp member
    rw [clean_of_demandsAt (whole ▸ filled), ← whole]
    exact ⟨filled, rfl⟩
  · rintro ⟨filled, body⟩
    have clean := clean_of_demandsAt filled
    refine ⟨(group.path, demandsAt changes group.path),
      (mem_sessionChangedDemandRuns changes _).mpr ⟨filled, rfl⟩, ?_⟩
    obtain ⟨path, filed⟩ := group
    dsimp only at clean body ⊢
    rw [clean, body]

private theorem contents_plainGroups (codec : Codec K C) (changes : List (EntityDemand K))
    (content : Path × Except String (List (EntityDemand K))) :
    content ∈ (plainGroups C changes).map (DemandGroup.contents codec) ↔
      demandsAt changes content.1 ≠ [] ∧
        content.2 = .ok (canonicalDemandRun (demandsAt changes content.1)) := by
  rw [mem_map]
  constructor
  · rintro ⟨group, member, rfl⟩
    obtain ⟨filled, whole⟩ := (mem_plainGroups changes _).mp member
    refine ⟨filled, ?_⟩
    unfold DemandGroup.contents DemandGroup.expanded
    rw [whole]
  · rintro ⟨filled, run⟩
    refine ⟨⟨content.1, .plain (canonicalDemandRun (demandsAt changes content.1))⟩,
      (mem_plainGroups changes _).mpr ⟨filled, rfl⟩, ?_⟩
    exact Prod.ext rfl run.symm

private theorem plainGroups_distinct : ((plainGroups C changes).map DemandGroup.path).Nodup := by
  have named := sessionChangedDemandRuns_distinct changes
  have same : (plainGroups C changes).map DemandGroup.path =
      (sessionChangedDemandRuns changes).map Prod.fst := by
    unfold plainGroups
    rw [map_map]
    refine map_congr_left fun run member => ?_
    obtain ⟨filled, whole⟩ := (mem_sessionChangedDemandRuns changes run).mp member
    exact clean_of_demandsAt (whole ▸ filled)
  rw [same]
  exact named

end

section

variable {K : Type}

def EntityDemand.cleaned (demand : EntityDemand K) : EntityDemand K :=
  { demand with
    location := demand.location.clean
    queryLocation := demand.queryLocation.map Location.clean }

variable (demands : List (EntityDemand K))

private theorem orderedRun_iff : orderedRun demands ↔ demands.Pairwise fun a b => a.span ≤ b.span := by
  have trans : IsTrans (EntityDemand K) fun a b => a.span ≤ b.span := ⟨fun _ _ _ => le_trans⟩
  refine .trans ?_ isChain_iff_pairwise
  induction demands with
  | nil => exact ⟨fun _ => .nil, fun _ => rfl⟩
  | cons first later ih =>
    cases later with
    | nil => exact ⟨fun _ => .singleton first, fun _ => rfl⟩
    | cons second later =>
      rw [orderedRun, Bool.and_eq_true, decide_eq_true_eq, ih, isChain_cons_cons]

private theorem pairwise_cleaned :
    ((demands.map EntityDemand.cleaned).Pairwise fun a b => a.span ≤ b.span) ↔
      demands.Pairwise fun a b => a.span ≤ b.span := pairwise_map

private theorem canonicalDemandRun_ordered :
    (canonicalDemandRun demands).Pairwise fun a b => a.span ≤ b.span := by
  unfold canonicalDemandRun
  dsimp only
  split
  · rename_i ordered
    exact (orderedRun_iff _).mp ordered
  · exact Grouping.sortByKey_sorted EntityDemand.span _

private theorem canonicalDemandRun_eq_cleaned :
    demands.map EntityDemand.cleaned = canonicalDemandRun demands ↔
      demands.Pairwise fun a b => a.span ≤ b.span := by
  constructor
  · intro same
    rw [← pairwise_cleaned, same]
    exact canonicalDemandRun_ordered demands
  · intro ordered
    exact (if_pos ((orderedRun_iff _).mpr ((pairwise_cleaned demands).mpr ordered))).symm

private theorem canonicalizeDemandRun_eq_cleaned {path : Path} {demands : List (EntityDemand K)}
    (within : ∀ demand ∈ demands, demand.location.path.clean = path) :
    canonicalizeDemandRun path demands = demands.map EntityDemand.cleaned := by
  refine map_congr_left fun demand member => ?_
  rw [← within demand member]
  rfl

end

section

def stretchPath : List WireDemand → Path
  | [] => []
  | demand :: _ => demand.location.path.clean

def stretchGroup (strings : List Path) (stretch : List WireDemand) :
    DemandGroup DemandKinds Bytes :=
  ⟨stretchPath stretch, .compact strings (groupOf strings stretch)⟩

private theorem namedTwice_eq_none_iff {K C : Type} {groups : List (DemandGroup K C)}
    (sorted : groups.Pairwise fun left right => left.path ≤ right.path) :
    namedTwice groups = none ↔ (groups.map DemandGroup.path).Nodup := by
  constructor
  · intro once
    exact (groups_ascend sorted once).imp ne_of_lt
  · intro distinct
    clear sorted
    induction groups with
    | nil => rfl
    | cons first later ih =>
      cases later with
      | nil => rfl
      | cons second later =>
        obtain ⟨apart, rest⟩ := nodup_cons.mp distinct
        have differ : first.path ≠ second.path := fun same =>
          apart (mem_map.mpr ⟨second, mem_cons_self, same.symm⟩)
        rw [namedTwice, if_neg differ]
        exact ih rest

variable {demands : List WireDemand} (spanned : ∀ demand ∈ demands, demand.Spanned)
include spanned

section

variable {stretch : List WireDemand} (member : stretch ∈ demands.splitBy linked)
include member

private theorem clean_stretchPath :
    ∀ demand ∈ stretch, demand.location.path.clean = stretchPath stretch := by
  obtain ⟨path, filled, holds⟩ := stretch_of_mem spanned member
  obtain ⟨first, rest, rfl⟩ := exists_cons_of_ne_nil filled
  intro demand inside
  rw [holds.within demand inside, ← holds.within first mem_cons_self]
  rfl

private theorem demandsAt_stretch (distinct : ((demands.splitBy linked).map stretchPath).Nodup) :
    demandsAt demands (stretchPath stretch) = stretch := by
  have filtered : ((demands.splitBy linked).flatMap id).filter (fun demand =>
      demand.location.path.clean = stretchPath stretch) = id stretch :=
    Grouping.filter_flatMap _ distinct (fun _ inside => clean_stretchPath spanned inside) member
  rw [flatMap_id, flatten_splitBy] at filtered
  exact filtered

variable (few : demands.length < 2 ^ 62)
include few

private theorem compactRun_groupOf : compactRun compactCodec (compactDemands demands).strings
        (groupOf (compactDemands demands).strings stretch) =
      .ok (stretchGroup (compactDemands demands).strings stretch) := by
  obtain ⟨path, filled, holds⟩ := stretch_of_mem spanned member
  obtain ⟨counts, shaped⟩ := shape_groupOf (compactDemands_short few) holds 0
  obtain ⟨first, rest, rfl⟩ := exists_cons_of_ne_nil filled
  have found := getElem_placeOf (holds.known first mem_cons_self).1
  have run : compactRun compactCodec (compactDemands demands).strings
      (groupOf (compactDemands demands).strings (first :: rest)) = _ := compactRun_of_found found
  rw [run]
  change ((compactDemandShape [(0, (groupOf (compactDemands demands).strings
    (first :: rest)).2)]).map fun _ => ()).map _ = _
  rw [shaped]
  rfl

private theorem contents_stretchGroup :
    (stretchGroup (compactDemands demands).strings stretch).contents compactCodec =
      (stretchPath stretch, .ok (stretch.map EntityDemand.cleaned)) := by
  obtain ⟨path, filled, holds⟩ := stretch_of_mem spanned member
  have within := clean_stretchPath spanned member
  change (stretchPath stretch, (expandCompactGroup _ _).map _) = _
  rw [expandCompactGroup_groupOf (compactDemands_short few) holds filled,
    ← canonicalizeDemandRun_eq_cleaned within]
  rfl

end

variable (few : demands.length < 2 ^ 62)
include few

private theorem beginCompact_eq (retained : DemandGroups DemandKinds Bytes)
    (transaction : DemandTransaction DemandKinds Bytes) :
    beginCompact compactCodec retained.list (compactDemands demands) [] true = .ok transaction ↔
      ((demands.splitBy linked).map stretchPath).Nodup ∧
        transaction = beginRuns retained.list (Grouping.sortByKey DemandGroup.path
          ((demands.splitBy linked).map (stretchGroup (compactDemands demands).strings))) [] true := by
  have runs (stretches : List (List WireDemand))
      (inside : ∀ stretch ∈ stretches, stretch ∈ demands.splitBy linked) :
      (stretches.map (groupOf (compactDemands demands).strings)).mapM
          (compactRun compactCodec (compactDemands demands).strings) =
        .ok (stretches.map (stretchGroup (compactDemands demands).strings)) := by
    induction stretches with
    | nil => rfl
    | cons stretch stretches ih =>
      rw [map_cons, mapM_cons,
        compactRun_groupOf spanned (inside stretch mem_cons_self) few,
        ih fun other member => inside other (mem_cons_of_mem stretch member)]
      rfl
  have all := runs _ fun stretch member => member
  rw [← (compactDemands_groups demands).1] at all
  have paths : ((demands.splitBy linked).map stretchPath).Nodup ↔
      ((Grouping.sortByKey DemandGroup.path ((demands.splitBy linked).map
        (stretchGroup (compactDemands demands).strings))).map DemandGroup.path).Nodup := by
    rw [((Grouping.sortByKey_perm DemandGroup.path _).map DemandGroup.path).nodup_iff, map_map]
    rfl
  rw [paths, ← namedTwice_eq_none_iff (Grouping.sortByKey_sorted _ _)]
  rw [beginCompact_of_runs all]
  split
  · rename_i path twice
    rw [twice]
    refine ⟨fun begun => ?_, fun given => absurd given.1 (Option.some_ne_none path)⟩
    cases begun
  · rename_i once
    rw [once]
    exact ⟨fun begun => ⟨rfl, (Except.ok.inj begun).symm⟩, fun given => congrArg _ given.2.symm⟩

private theorem beginCompact_same_iff (retained : DemandGroups DemandKinds Bytes) : (∃ transaction,
        beginCompact compactCodec retained.list (compactDemands demands) [] true = .ok transaction ∧
        transaction.groups.map (DemandGroup.contents compactCodec) =
          (beginPlain retained.list demands [] true).groups.map
            (DemandGroup.contents compactCodec)) ↔
      ((demands.splitBy linked).map stretchPath).Nodup ∧
        ∀ stretch ∈ demands.splitBy linked, stretch.Pairwise fun a b => a.span ≤ b.span := by
  let stretches := demands.splitBy linked
  let filed := Grouping.sortByKey DemandGroup.path
    (stretches.map (stretchGroup (compactDemands demands).strings))
  have filedContents : ∀ content, content ∈ filed.map (DemandGroup.contents compactCodec) ↔
      ∃ stretch ∈ stretches,
        (stretchPath stretch, .ok (stretch.map EntityDemand.cleaned)) = content := by
    intro content
    rw [((Grouping.sortByKey_perm DemandGroup.path _).map _).mem_iff, map_map, mem_map]
    refine exists_congr fun stretch => and_congr_right fun member => ?_
    rw [Function.comp_apply, contents_stretchGroup spanned member few]
  have filedDistinct (distinct : (stretches.map stretchPath).Nodup) :
      (filed.map DemandGroup.path).Nodup := by
    rw [((Grouping.sortByKey_perm DemandGroup.path _).map DemandGroup.path).nodup_iff, map_map]
    exact distinct
  constructor
  · rintro ⟨transaction, begun, same⟩
    obtain ⟨distinct, rfl⟩ := (beginCompact_eq spanned few retained transaction).mp begun
    refine ⟨distinct, fun stretch member => ?_⟩
    have agree := (contents_beginRuns compactCodec retained (filedDistinct distinct)
      (plainGroups_distinct demands)).mp same
    have here := (contents_plainGroups compactCodec demands _).mp
      ((agree _).mp ((filedContents _).mpr ⟨stretch, member, rfl⟩))
    rw [demandsAt_stretch spanned member distinct] at here
    exact (canonicalDemandRun_eq_cleaned stretch).mp (Except.ok.inj here.2)
  · rintro ⟨distinct, ordered⟩
    refine ⟨_, (beginCompact_eq spanned few retained _).mpr ⟨distinct, rfl⟩, ?_⟩
    refine (contents_beginRuns compactCodec retained (filedDistinct distinct)
      (plainGroups_distinct demands)).mpr fun content => ?_
    rw [filedContents, contents_plainGroups]
    constructor
    · rintro ⟨stretch, member, rfl⟩
      obtain ⟨path, filled, -⟩ := stretch_of_mem spanned member
      rw [demandsAt_stretch spanned member distinct]
      exact ⟨filled, congrArg _ ((canonicalDemandRun_eq_cleaned stretch).mpr
        (ordered stretch member))⟩
    · rintro ⟨filled, run⟩
      obtain ⟨demand, inside⟩ := exists_mem_of_ne_nil _ filled
      obtain ⟨present, clean⟩ := mem_demandsAt.mp inside
      rw [← flatten_splitBy linked demands] at present
      obtain ⟨stretch, member, here⟩ := mem_flatten.mp present
      have path : stretchPath stretch = content.1 :=
        (clean_stretchPath spanned member demand here).symm.trans clean
      refine ⟨stretch, member, Prod.ext path ?_⟩
      rw [run, ← path, demandsAt_stretch spanned member distinct]
      exact congrArg _ ((canonicalDemandRun_eq_cleaned stretch).mpr (ordered stretch member))

end

section

/-- What a reset analysis may send: one run for each path, its locations in that path and with
machine bounds. -/
structure ResetRuns (runs : List (Path × List WireDemand)) : Prop where
  distinct : (runs.map Prod.fst).Nodup
  filled : ∀ run ∈ runs, run.2 ≠ []
  within : ∀ run ∈ runs, ∀ demand ∈ run.2, demand.location.path = run.1
  spanned : ∀ demand ∈ runs.flatMap Prod.snd, demand.Spanned
  few : (runs.flatMap Prod.snd).length < 2 ^ 62

variable {runs : List (Path × List WireDemand)} (reset : ResetRuns runs)
include reset

private theorem ResetRuns.splitBy_eq (ordered : ∀ run ∈ runs, run.2.Pairwise fun a b => a.span ≤ b.span) :
    (runs.flatMap Prod.snd).splitBy linked = runs.map Prod.snd := by
  rw [splitBy_eq_iff]
  refine ⟨flatMap_def .., ?_, ?_, ?_⟩
  · intro empty
    obtain ⟨run, member, none⟩ := mem_map.mp empty
    exact reset.filled run member none
  · intro stretch member
    obtain ⟨run, inside, rfl⟩ := mem_map.mp member
    refine List.Pairwise.isChain ((ordered run inside).imp_of_mem fun {a b} inA inB below => ?_)
    have rises : a.location.startByte ≤ b.location.startByte := by
      rcases Prod.Lex.toLex_le_toLex.mp below with before | ⟨same, -⟩
      · exact le_of_lt before
      · exact same.le
    exact decide_eq_true
      ⟨(reset.within run inside a inA).trans (reset.within run inside b inB).symm, rises⟩
  · rw [isChain_map]
    refine List.Pairwise.isChain ((pairwise_map.mp reset.distinct).imp_of_mem
      fun {earlier later} inEarlier inLater apart => ?_)
    refine ⟨reset.filled earlier inEarlier, reset.filled later inLater, ?_⟩
    refine decide_eq_false fun links => apart ?_
    rw [← reset.within earlier inEarlier _ (getLast_mem (reset.filled earlier inEarlier)),
      links.1, reset.within later inLater _ (head_mem (reset.filled later inLater))]

variable {run : Path × List WireDemand}

private theorem ResetRuns.run_eq (member : run ∈ runs) :
    run.2 = (runs.flatMap Prod.snd).filter fun demand => demand.location.path = run.1 := by
  exact (Grouping.filter_flatMap (fun demand : WireDemand => demand.location.path) reset.distinct
    reset.within member).symm

private theorem ResetRuns.exists_stretch (member : run ∈ runs)
    (distinct : (((runs.flatMap Prod.snd).splitBy linked).map stretchPath).Nodup) :
    run.2 ∈ (runs.flatMap Prod.snd).splitBy linked ∧
      demandsAt (runs.flatMap Prod.snd) run.1.clean = run.2 := by
  obtain ⟨demand, inside⟩ := exists_mem_of_ne_nil _ (reset.filled run member)
  have present : demand ∈ runs.flatMap Prod.snd := mem_flatMap.mpr ⟨run, member, inside⟩
  rw [← flatten_splitBy linked (runs.flatMap Prod.snd)] at present
  obtain ⟨stretch, found, here⟩ := mem_flatten.mp present
  have clean := clean_stretchPath reset.spanned found demand here
  rw [reset.within run member demand inside] at clean
  have whole := demandsAt_stretch reset.spanned found distinct
  rw [← clean] at whole
  obtain ⟨path, -, holds⟩ := stretch_of_mem reset.spanned found
  have samePath : path = run.1 :=
    (holds.within demand here).symm.trans (reset.within run member demand inside)
  -- all of the stretch has the run's path as it is spelled, so the clean path adds no demand
  have same : run.2 = stretch := by
    rw [reset.run_eq member, ← whole]
    refine filter_congr fun other elsewhere => ?_
    rw [decide_eq_decide]
    constructor
    · intro equal
      rw [equal]
    · intro equal
      have within : other ∈ stretch := by
        rw [← whole]
        exact mem_demandsAt.mpr ⟨elsewhere, equal⟩
      rw [holds.within other within, samePath]
  rw [same]
  exact ⟨found, whole⟩

/-- For all runs a reset may send: packing loses nothing, and the producer accepts the packed form
and files what it files for the plain list if no two runs have one clean path and every run is in
location order. The plain list is always filed in path order, each run in location order. -/
theorem compact_demands_lose_nothing (retained : DemandGroups DemandKinds Bytes) :
    let demands := runs.flatMap Prod.snd
    let plain := beginPlain retained.list demands [] true
    expandCompactDemands (compactDemands demands) = .ok demands ∧
      (plain.groups.Pairwise fun first second => first.path < second.path) ∧
      (∀ group ∈ plain.groups, ∃ run, group.expanded compactCodec = .ok run ∧
        run.Pairwise fun a b => a.span ≤ b.span) ∧
      ((∃ transaction,
          beginCompact compactCodec retained.list (compactDemands demands) [] true =
            .ok transaction ∧
          transaction.groups.map (DemandGroup.contents compactCodec) =
            plain.groups.map (DemandGroup.contents compactCodec)) ↔
        (runs.map fun run => run.1.clean).Nodup ∧
          ∀ run ∈ runs, run.2.Pairwise fun a b => a.span ≤ b.span) := by
  intro demands plain
  refine ⟨expandCompactDemands_compactDemands demands reset.spanned reset.few, ?_, ?_, ?_⟩
  · change ((beginRuns retained.list (plainGroups Bytes demands) [] true).groups).Pairwise _
    rw [(beginRuns_spec retained _ [] true).1]
    exact (retained.edited _ [] true).ordered
  · intro group member
    have filed := (mem_beginRuns retained (plainGroups_distinct demands) group).mp member
    obtain ⟨-, body⟩ := (mem_plainGroups demands group).mp filed
    refine ⟨canonicalDemandRun (demandsAt demands group.path), ?_, canonicalDemandRun_ordered _⟩
    unfold DemandGroup.expanded
    rw [body]
  · rw [beginCompact_same_iff reset.spanned reset.few retained]
    constructor
    · rintro ⟨distinct, ordered⟩
      refine ⟨?_, fun run member => ordered _ (reset.exists_stretch member distinct).1⟩
      refine .map_on (fun run member other otherMember same => ?_) reset.distinct.of_map
      have whole := (reset.exists_stretch member distinct).2
      rw [same, (reset.exists_stretch otherMember distinct).2] at whole
      obtain ⟨demand, inside⟩ := exists_mem_of_ne_nil _ (reset.filled run member)
      refine inj_on_of_nodup_map reset.distinct member otherMember ?_
      rw [← reset.within run member demand inside,
        reset.within other otherMember demand (whole ▸ inside)]
    · rintro ⟨distinct, ordered⟩
      rw [reset.splitBy_eq ordered]
      constructor
      · have paths : (runs.map Prod.snd).map stretchPath = runs.map fun run => run.1.clean := by
          rw [map_map]
          refine map_congr_left fun run member => ?_
          obtain ⟨first, rest, shape⟩ := exists_cons_of_ne_nil (reset.filled run member)
          have here := reset.within run member first (shape ▸ mem_cons_self)
          rw [Function.comp_apply, shape, stretchPath, here]
        rw [paths]
        exact distinct
      · intro stretch member
        obtain ⟨run, inside, rfl⟩ := mem_map.mp member
        exact ordered run inside

omit reset

private def typeDemand (path : Path) (startByte endByte : ℕ) : WireDemand where
  location := ⟨path, startByte, endByte⟩
  queryLocation := some ⟨path, startByte, endByte⟩
  wantsAsync := true
  kinds := ⟨false, false, true, false, false, false, false, false, false, false, false, false, false,
    false, false, false, false, false, false, true⟩

private theorem typeDemands_reset (runs : List (Path × List WireDemand))
    (distinct : (runs.map Prod.fst).Nodup) (filled : ∀ run ∈ runs, run.2 ≠ [])
    (within : ∀ run ∈ runs, ∀ demand ∈ run.2, demand.location.path = run.1)
    (spans : ∀ demand ∈ runs.flatMap Prod.snd,
      (demand.location.startByte ≤ demand.location.endByte ∧ demand.location.endByte < 2 ^ 64) ∧
        demand.queryLocation = some demand.location)
    (few : (runs.flatMap Prod.snd).length < 2 ^ 62) : ResetRuns runs where
  distinct := distinct
  filled := filled
  within := within
  spanned := fun demand member => ⟨(spans demand member).1, fun query asked => by
    rw [Option.mem_def, (spans demand member).2] at asked
    exact Option.some.inj asked ▸ (spans demand member).1⟩
  few := few

private def twoFiles : List (Path × List WireDemand) :=
  [(['b'], [typeDemand ['b'] 0 4, typeDemand ['b'] 2 3]), (['a'], [typeDemand ['a'] 5 6])]

theorem compact_demands_lose_nothing_two : ∃ transaction,
    beginCompact compactCodec [] (compactDemands (twoFiles.flatMap Prod.snd)) [] true =
      .ok transaction ∧
    transaction.groups.map (DemandGroup.contents compactCodec) =
      (beginPlain [] (twoFiles.flatMap Prod.snd) [] true).groups.map
        (DemandGroup.contents compactCodec) :=
  (compact_demands_lose_nothing (typeDemands_reset twoFiles (by decide)
    (by decide) (by decide) (by decide) (by decide)) .empty).2.2.2.mpr (by decide)

private def turnedRun : List (Path × List WireDemand) :=
  [(['a'], [typeDemand ['a'] 5 6, typeDemand ['a'] 0 4])]

theorem compact_refuses_turned_run : ResetRuns turnedRun ∧ ∀ transaction,
    beginCompact compactCodec [] (compactDemands (turnedRun.flatMap Prod.snd)) [] true ≠
      .ok transaction := by
  have reset := typeDemands_reset turnedRun (by decide) (by decide) (by decide) (by decide)
    (by decide)
  refine ⟨reset, fun transaction begun => ?_⟩
  have distinct := ((beginCompact_eq reset.spanned reset.few .empty transaction).mp begun).1
  exact absurd distinct (by decide)

end

end SolidChecker.Producer
