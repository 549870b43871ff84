/- source: apps/solid-typefacts/src/passes.rs -/

import SolidChecker.Producer.Reuse

namespace SolidChecker.Producer

open Foundation List Option

theorem mapM_some {X Z : Type} {make : X → Option Z} {items : List X} {results : List Z}
    (made : items.mapM make = some results) :
    (∀ item ∈ items, ∃ result ∈ results, make item = some result) ∧
      ∀ result ∈ results, ∃ item ∈ items, make item = some result := by
  induction items generalizing results with
  | nil =>
    rw [mapM_nil] at made
    cases made
    simp
  | cons item items ih =>
    rw [mapM_cons] at made
    obtain ⟨first, first_made, rest⟩ := bind_eq_some_iff.mp made
    obtain ⟨later, later_made, whole⟩ := bind_eq_some_iff.mp rest
    cases whole
    obtain ⟨forward, backward⟩ := ih later_made
    constructor
    · intro other member
      rcases mem_cons.mp member with rfl | member
      · exact ⟨first, mem_cons_self, first_made⟩
      · obtain ⟨result, held, same⟩ := forward other member
        exact ⟨result, mem_cons_of_mem _ held, same⟩
    · intro result member
      rcases mem_cons.mp member with rfl | member
      · exact ⟨item, mem_cons_self, first_made⟩
      · obtain ⟨other, held, same⟩ := backward result member
        exact ⟨other, mem_cons_of_mem _ held, same⟩

variable {T E O D : Type}

namespace SourceProgram

variable (program : SourceProgram T E O)

def members : Finset Path := (program.files.map ProgramFile.path).toFinset

def successors (path : Path) : Finset Path :=
  ((program.resolutions.filter fun resolution => resolution.importer = path).filterMap
    Resolution.target).toFinset ∩ program.members

def Reaches : Path → Path → Prop :=
  Relation.ReflTransGen fun path target => target ∈ program.successors path

def AmbientReads (target : Path) : Prop :=
  ∃ contributor ∈ program.ambient, program.Reaches contributor.1 target

def Reads (path target : Path) : Prop :=
  program.AmbientReads target ∨ program.Reaches path target

def content (path : Path) : Option T × E × Multiset Record × Finset Path :=
  (program.textAt path, program.exports path,
    (program.resolutions.filter fun resolution => resolution.importer = path).map Resolution.record,
    program.successors path)

theorem mem_members {path : Path} : path ∈ program.members ↔ ∃ file ∈ program.files,
    file.path = path := by
  simp [members]

variable {path target : Path}

private theorem mem_successors : target ∈ program.successors path ↔
    target ∈ program.members ∧ ∃ resolution ∈ program.resolutions,
      resolution.importer = path ∧ resolution.target = some target := by
  simp only [successors, Finset.mem_inter, Multiset.mem_toFinset, Multiset.mem_filterMap,
    Multiset.mem_filter, and_assoc]
  exact and_comm

private theorem successors_subset (path : Path) : program.successors path ⊆ program.members :=
  Finset.inter_subset_right

theorem reaches_member (member : path ∈ program.members) (reaches : program.Reaches path target) :
    target ∈ program.members := by
  cases reaches with
  | refl => exact member
  | tail _ edge => exact program.successors_subset _ edge

private theorem ambient_member {contributor : Path × T} (member : contributor ∈ program.ambient) :
    contributor.1 ∈ program.members := by
  obtain ⟨file, held, rfl⟩ := mem_map.mp member
  exact program.mem_members.mpr ⟨file, (mem_filter.mp held).1, rfl⟩

theorem reads_member (member : path ∈ program.members) (reads : program.Reads path target) :
    target ∈ program.members := by
  rcases reads with ⟨contributor, held, reaches⟩ | reaches
  · exact program.reaches_member (program.ambient_member held) reaches
  · exact program.reaches_member member reaches

variable {program} in
theorem reaches_of_successors {other : SourceProgram T E O} (reaches : program.Reaches path target)
    (same : ∀ reached, program.Reaches path reached →
      program.successors reached ⊆ other.successors reached) : other.Reaches path target := by
  induction reaches with
  | refl => exact .refl
  | tail before edge ih => exact ih.tail (same _ before edge)

variable {program} in
theorem reads_iff {other : SourceProgram T E O} {path : Path} (ambient : other.ambient = program.ambient)
    (same : ∀ target, program.Reads path target →
      other.successors target = program.successors target) (target : Path) :
    other.Reads path target ↔ program.Reads path target := by
  -- a walk of either program stays on paths the first one reads, where the edges agree
  have back : ∀ root, (∀ reached, program.Reaches root reached → program.Reads path reached) →
      (other.Reaches root target ↔ program.Reaches root target) := by
    intro root inside
    constructor
    · intro reaches
      induction reaches with
      | refl => exact .refl
      | tail _ edge ih => exact ih.tail (same _ (inside _ ih) ▸ edge)
    · intro reaches
      exact reaches_of_successors reaches fun reached before =>
        (same reached (inside reached before)).ge
  unfold Reads AmbientReads
  rw [ambient, back path fun _ reached => .inr reached]
  refine or_congr_left ⟨?_, ?_⟩
  · rintro ⟨contributor, held, reaches⟩
    exact ⟨contributor, held,
      (back contributor.1 fun _ reached => .inl ⟨contributor, held, reached⟩).mp reaches⟩
  · rintro ⟨contributor, held, reaches⟩
    exact ⟨contributor, held,
      (back contributor.1 fun _ reached => .inl ⟨contributor, held, reached⟩).mpr reaches⟩

theorem textAt_of_mem {file : ProgramFile T} (member : file ∈ program.files) :
    program.textAt file.path = some file.text := by
  have distinct := program.distinct
  unfold textAt
  cases found : program.files.find? fun other => decide (other.path = file.path) with
  | none =>
    have absent := find?_eq_none.mp found file member
    simp at absent
  | some other =>
    have same : other.path = file.path := by
      have test := find?_some found
      exact of_decide_eq_true test
    have equal : other = file :=
      inj_on_of_nodup_map distinct (mem_of_find?_eq_some found) member same
    rw [equal, map_some]

end SourceProgram

namespace Graph

variable {program : SourceProgram T E O} {path : Path}

theorem mem_membersOf : path ∈ membersOf program ↔ path ∈ program.members :=
  Finset.mem_sort _

private theorem membersOf_nodup : (membersOf program).Nodup := Finset.sort_nodup _ _

private theorem idxOf_eq_some {paths : List Path} (distinct : paths.Nodup) {place : ℕ} :
    paths.idxOf? path = some place ↔ paths[place]? = some path := by
  induction paths generalizing place with
  | nil => simp
  | cons first later ih =>
    obtain ⟨absent, distinct⟩ := nodup_cons.mp distinct
    rw [idxOf?_cons]
    cases place with
    | zero =>
      by_cases same : first = path
      · simp [same]
      · simp [same]
    | succ place =>
      by_cases same : first = path
      · subst same
        have elsewhere : later[place]? ≠ some first := fun found =>
          absent (mem_of_getElem? found)
        simp [elsewhere]
      · simp [same, ih distinct]

private theorem place_iff {place : ℕ} :
    (membersOf program).idxOf? path = some place ↔ (membersOf program)[place]? = some path :=
  idxOf_eq_some membersOf_nodup

theorem place_of_member (member : path ∈ program.members) :
    ∃ place : ℕ, (membersOf program)[place]? = some path :=
  getElem?_of_mem (mem_membersOf.mpr member)

variable {place target : ℕ}

theorem mem_edgesOf : target ∈ (edgesOf program).getD place [] ↔
    ∃ path other, (membersOf program)[place]? = some path ∧
      (membersOf program)[target]? = some other ∧ other ∈ program.successors path := by
  rw [edgesOf, getD_eq_getElem?_getD, getElem?_map]
  cases found : (membersOf program)[place]? with
  | none => simp
  | some path =>
    simp only [map_some, getD_some, Finset.mem_sort, Multiset.mem_toFinset,
      Multiset.mem_filterMap, Multiset.mem_filter, Option.some.injEq]
    constructor
    · rintro ⟨resolution, ⟨member, importer⟩, landed⟩
      obtain ⟨other, target_eq, indexed⟩ := bind_eq_some_iff.mp landed
      have placed := place_iff.mp indexed
      have inside := mem_membersOf.mp (mem_of_getElem? placed)
      exact ⟨path, other, rfl, placed, program.mem_successors.mpr
        ⟨inside, resolution, member, importer, target_eq⟩⟩
    · rintro ⟨_, other, rfl, placed, edge⟩
      obtain ⟨-, resolution, member, importer, target_eq⟩ := program.mem_successors.mp edge
      refine ⟨resolution, ⟨member, importer⟩, ?_⟩
      rw [target_eq, bind_some]
      exact place_iff.mpr placed

theorem reaches_iff (placed : (membersOf program)[place]? = some path) :
    Closure.Reaches (fun place => (edgesOf program).getD place []) place target ↔
      ∃ other, (membersOf program)[target]? = some other ∧ program.Reaches path other := by
  constructor
  · intro reaches
    induction reaches with
    | refl => exact ⟨path, placed, .refl⟩
    | tail _ edge ih =>
      obtain ⟨middle, middle_placed, reached⟩ := ih
      obtain ⟨source, other, source_placed, other_placed, successor⟩ := mem_edgesOf.mp edge
      cases middle_placed.symm.trans source_placed
      exact ⟨other, other_placed, reached.tail successor⟩
  · rintro ⟨other, other_placed, reached⟩
    induction reached generalizing target with
    | refl =>
      obtain rfl : place = target := by
        have first := place_iff.mpr placed
        have second := place_iff.mpr other_placed
        exact Option.some.inj (first.symm.trans second)
      exact .refl
    | tail before successor ih =>
      have start := mem_membersOf.mp (mem_of_getElem? placed)
      obtain ⟨middle, middle_placed⟩ := place_of_member (program.reaches_member start before)
      exact (ih middle_placed).tail (mem_edgesOf.mpr ⟨_, _, middle_placed, other_placed, successor⟩)

def ofProgram (digests : Digests T E O D) (program : SourceProgram T E O) : Graph D :=
  (build digests program).computeResolutions digests program

def Indexes (program : SourceProgram T E O) (paths : Path → Prop) (bits : Finset ℕ) : Prop :=
  ∀ place, place ∈ bits ↔ ∃ path, (membersOf program)[place]? = some path ∧ paths path

private theorem Indexes.empty : Indexes program (fun _ => False) ∅ := fun place => by simp

section

variable (digests : Digests T E O D) (program : SourceProgram T E O)

@[simp] theorem ofProgram_paths : (ofProgram digests program).paths = membersOf program := rfl

variable {path : Path} {place : ℕ} {other : SourceProgram T E O}

theorem ofProgram_id :
    (ofProgram digests program).id path = some place ↔ (membersOf program)[place]? = some path :=
  place_iff

private theorem close_indexes {paths : Path → Prop} {bits : Finset ℕ} (indexes : Indexes program paths bits)
    (closed : ∀ path, paths path → ∀ target ∈ program.successors path, paths target)
    (seeds : List Path) (inside : ∀ seed ∈ seeds, seed ∈ program.members) :
    Indexes program (fun target => paths target ∨ ∃ seed ∈ seeds, program.Reaches seed target)
      ((ofProgram digests program).close (seeds.filterMap (ofProgram digests program).id) bits) := by
  let graph := ofProgram digests program
  let successors := fun place => (edgesOf program).getD place []
  have placed_seed : ∀ place ∈ seeds.filterMap graph.id,
      ∃ seed ∈ seeds, (membersOf program)[place]? = some seed := by
    intro place member
    obtain ⟨seed, in_seeds, found⟩ := mem_filterMap.mp member
    exact ⟨seed, in_seeds, place_iff.mp found⟩
  have in_range : ∀ place path, (membersOf program)[place]? = some path →
      place ∈ Finset.range (membersOf program).length := fun place path found => by
    rw [Finset.mem_range]
    exact (List.getElem?_eq_some_iff.mp found).1
  have fuel : (Finset.range (membersOf program).length).card < graph.paths.length + 1 := by
    rw [Finset.card_range]
    exact Nat.lt_succ_self _
  obtain ⟨seen, returned, exact_seen⟩ := Closure.closeUnder_seeds successors
    (Finset.range (membersOf program).length)
    (fun _ _ target edge => by
      obtain ⟨_, other, -, found, -⟩ := mem_edgesOf.mp edge
      exact in_range target other found)
    (seeds.filterMap graph.id)
    (fun place member => by
      obtain ⟨seed, -, found⟩ := placed_seed place member
      exact in_range place seed found)
    bits
    (fun place member => by
      obtain ⟨path, found, -⟩ := (indexes place).mp member
      exact in_range place path found)
    (fun place member target edge => by
      obtain ⟨path, found, held⟩ := (indexes place).mp member
      obtain ⟨source, other, source_found, other_found, successor⟩ := mem_edgesOf.mp edge
      cases found.symm.trans source_found
      exact (indexes target).mpr ⟨other, other_found, closed path held other successor⟩)
    fuel
  have closes : graph.close (seeds.filterMap graph.id) bits = seen :=
    congrArg (Option.getD · bits) returned
  intro place
  rw [closes, exact_seen, indexes place]
  constructor
  · rintro (⟨path, found, held⟩ | ⟨start, seed_place, reaches⟩)
    · exact ⟨path, found, .inl held⟩
    · obtain ⟨seed, in_seeds, seed_found⟩ := placed_seed start seed_place
      obtain ⟨other, found, reached⟩ := (reaches_iff seed_found).mp reaches
      exact ⟨other, found, .inr ⟨seed, in_seeds, reached⟩⟩
  · rintro ⟨path, found, held | ⟨seed, in_seeds, reached⟩⟩
    · exact .inl ⟨path, found, held⟩
    · obtain ⟨start, seed_found⟩ := place_of_member (inside seed in_seeds)
      exact .inr ⟨start, mem_filterMap.mpr ⟨seed, in_seeds, place_iff.mpr seed_found⟩,
        (reaches_iff seed_found).mpr ⟨path, found, reached⟩⟩

theorem ambientReads_indexes :
    Indexes program program.AmbientReads ((ofProgram digests program).close
      ((program.files.filter ProgramFile.ambient).filterMap fun file =>
        (ofProgram digests program).id file.path) ∅) := by
  have closed := close_indexes digests program .empty (fun _ never => never.elim)
    (program.ambient.map Prod.fst) fun seed member => by
      obtain ⟨contributor, held, rfl⟩ := mem_map.mp member
      exact program.ambient_member held
  rw [SourceProgram.ambient, List.map_map, filterMap_map] at closed
  intro place
  refine (closed place).trans ?_
  simp [SourceProgram.AmbientReads, SourceProgram.ambient]

theorem reads_indexes {ambientReads : Finset ℕ}
    (ambient : Indexes program program.AmbientReads ambientReads)
    (placed : (ofProgram digests program).id path = some place) :
    Indexes program (program.Reads path)
      ((ofProgram digests program).close [place] ambientReads) := by
  have member := mem_membersOf.mp (mem_of_getElem? (place_iff.mp placed))
  have closed := close_indexes digests program ambient
    (fun _ ⟨contributor, held, reaches⟩ _ edge => ⟨contributor, held, reaches.tail edge⟩)
    [path] fun seed held => by rwa [mem_singleton.mp held]
  rw [filterMap_cons_some placed, filterMap_nil] at closed
  intro target
  rw [closed target]
  simp [SourceProgram.Reads]

private theorem mem_recordsOf {path other : Path} (placed : (membersOf program)[place]? = some path) :
    other ∈ ((build digests program).recordsOf program path
      ((edgesOf program).getD place [])).2 ↔ other ∈ program.successors path := by
  rw [recordsOf, mem_filterMap]
  constructor
  · rintro ⟨target, edge, found⟩
    obtain ⟨source, landed, source_placed, landed_placed, successor⟩ := mem_edgesOf.mp edge
    cases placed.symm.trans source_placed
    cases found.symm.trans landed_placed
    exact successor
  · intro successor
    obtain ⟨target, found⟩ := place_of_member (program.successors_subset path successor)
    exact ⟨target, mem_edgesOf.mpr ⟨path, other, placed, found, successor⟩, found⟩

theorem resolutions_at (placed : (membersOf program)[place]? = some path) :
    (ofProgram digests program).resolutions[place]? = some (digests.resolutions
      ((build digests program).recordsOf program path ((edgesOf program).getD place []))) := by
  have paired : ((membersOf program).zip (edgesOf program))[place]? =
      some (path, (edgesOf program).getD place []) := by
    refine getElem?_zip_eq_some.mpr ⟨placed, ?_⟩
    rw [getD_eq_getElem?_getD, edgesOf, getElem?_map, placed]
    rfl
  have mapped := congrArg (Option.map fun pair =>
    digests.resolutions ((build digests program).recordsOf program pair.1 pair.2)) paired
  rw [← getElem?_map, map_some] at mapped
  exact mapped

theorem successors_of_resolutions {place moved : ℕ}
    (placed : (membersOf program)[place]? = some path)
    (other_placed : (membersOf other)[moved]? = some path)
    (same : (ofProgram digests program).resolutions[place]? =
      (ofProgram digests other).resolutions[moved]?) :
    (program.content path).2.2 = (other.content path).2.2 := by
  rw [resolutions_at digests program placed, resolutions_at digests other other_placed] at same
  have parts := digests.resolutions_injective (Option.some.inj same)
  have records := congrArg (fun pair => (pair.1 : Multiset Record)) parts
  simp only [recordsOf, Multiset.sort_eq] at records
  have targets : program.successors path = other.successors path := by
    ext target
    rw [← mem_recordsOf digests program placed, ← mem_recordsOf digests other other_placed, parts]
  exact Prod.ext records targets

theorem snapshotOf_place (placed : (membersOf program)[place]? = some path) :
    Reuse.snapshotOf digests program (ofProgram digests program) path =
      ((ofProgram digests program).resolutions[place]?).map fun resolutions =>
        ((program.textAt path).map digests.text, digests.exports (program.exports path),
          resolutions) := by
  have found := (ofProgram_id digests program).mpr placed
  simp only [Reuse.snapshotOf, found, bind_eq_bind, bind_some]
  cases (ofProgram digests program).resolutions[place]? with
  | none => rfl
  | some resolutions => rfl

private theorem snapshotOf_isSome :
    (Reuse.snapshotOf digests program (ofProgram digests program) path).isSome ↔
      path ∈ program.members := by
  constructor
  · intro some_inputs
    obtain ⟨inputs, held⟩ := isSome_iff_exists.mp some_inputs
    obtain ⟨place, found, -⟩ := bind_eq_some_iff.mp held
    exact mem_membersOf.mp (mem_of_getElem? ((ofProgram_id digests program).mp found))
  · intro member
    obtain ⟨place, placed⟩ := place_of_member member
    rw [snapshotOf_place digests program placed, resolutions_at digests program placed]
    rfl

theorem content_of_snapshot (member : path ∈ program.members)
    (same : Reuse.snapshotOf digests other (ofProgram digests other) path =
      Reuse.snapshotOf digests program (ofProgram digests program) path) :
    path ∈ other.members ∧ other.content path = program.content path := by
  have inside : path ∈ other.members := by
    rw [← snapshotOf_isSome digests other, same]
    exact (snapshotOf_isSome digests program).mpr member
  refine ⟨inside, ?_⟩
  obtain ⟨place, placed⟩ := place_of_member member
  obtain ⟨moved, other_placed⟩ := place_of_member inside
  have compared := same
  rw [snapshotOf_place digests program placed, snapshotOf_place digests other other_placed,
    resolutions_at digests program placed, resolutions_at digests other other_placed,
    map_some, map_some, Option.some.injEq, Prod.mk.injEq, Prod.mk.injEq] at compared
  obtain ⟨text, exports, resolutions⟩ := compared
  have resolved := successors_of_resolutions digests other other_placed placed (by
    rw [resolutions_at digests program placed, resolutions_at digests other other_placed,
      resolutions])
  exact Prod.ext (map_injective digests.text_injective text)
    (Prod.ext (digests.exports_injective exports) resolved)

theorem paths_edges_of_digest
    (same : (ofProgram digests other).digest = (build digests program).digest) :
    membersOf other = membersOf program ∧ edgesOf other = edgesOf program := by
  have pairs : (membersOf other).zip (edgesOf other) = (membersOf program).zip (edgesOf program) :=
    digests.graph_injective same
  have lengths : ∀ read : SourceProgram T E O, (membersOf read).length = (edgesOf read).length :=
    fun read => (length_map _).symm
  constructor
  · rw [← map_fst_zip (lengths other).le, pairs, map_fst_zip (lengths program).le]
  · rw [← map_snd_zip (lengths other).ge, pairs, map_snd_zip (lengths program).ge]

end

end Graph

end SolidChecker.Producer
