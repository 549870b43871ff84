/- source: apps/solid-typefacts/src/passes.rs -/

import SolidChecker.Producer.ReuseGraph

namespace SolidChecker.Producer

open Foundation List

/-- A program whose files stand at addresses of one memory, which never change their contents. -/
structure PlacedProgram {T : Type} (memory : ℕ → ProgramFile T) (E O : Type) extends
    SourceProgram T E O where
  address : Path → ℕ
  held : ∀ file ∈ files, memory (address file.path) = file

namespace PlacedProgram

variable {T E O D : Type} {memory : ℕ → ProgramFile T}

def fileAt (program : PlacedProgram memory E O) (path : Path) : Option (ProgramFile T) :=
  program.files.find? fun file => decide (file.path = path)

variable [DecidableEq O] [DecidableEq D] (digests : Digests T E O D)
  (old new : PlacedProgram memory E O)

/-- Whether a file is a seed of the rescan; none if any module's exports can have moved. -/
def seedAt (before after : Graph D) (entry : Path × ℕ) : Option (Option ℕ) :=
  match old.fileAt entry.1, new.fileAt entry.1 with
  | some was, some is =>
    let same := decide (old.address entry.1 = new.address entry.1)
    if !same && (was.ambient || is.ambient) then none
    else if !same || decide (before.resolutions[entry.2]? ≠ after.resolutions[entry.2]?) then
      some (some entry.2)
    else some none
  | _, _ => none

def rebuiltExportRescan : Option (List Path) :=
  if old.options ≠ new.options then none
  else
    let before := Graph.build digests old.toSourceProgram
    let after := Graph.build digests new.toSourceProgram
    if before.paths ≠ after.paths then none
    else
      let before := before.computeResolutions digests old.toSourceProgram
      let after := after.computeResolutions digests new.toSourceProgram
      (after.paths.zipIdx.mapM (seedAt old new before after)).bind fun seeds =>
        let reverse place := (List.range after.paths.length).filter fun source =>
          decide (place ∈ after.edges.getD source [])
        (Closure.visits reverse (after.paths.length + 1)
          ((seeds.filterMap fun seed => seed).foldl Closure.Walk.push ⟨[], ∅⟩)).map fun found =>
            found.filterMap fun place => after.paths[place]?

def Moved (path : Path) : Prop :=
  old.address path ≠ new.address path ∨
    (old.toSourceProgram.content path).2.2 ≠ (new.toSourceProgram.content path).2.2

def Unconfined : Prop :=
  old.options ≠ new.options ∨ old.toSourceProgram.members ≠ new.toSourceProgram.members ∨
    ∃ path, old.address path ≠ new.address path ∧ ∃ was is, old.fileAt path = some was ∧
      new.fileAt path = some is ∧ (was.ambient || is.ambient) = true

end PlacedProgram

namespace Graph

variable {T E O D : Type} (digests : Digests T E O D) {program other : SourceProgram T E O}

private theorem resolutions_iff {place : ℕ} {path : Path} (members : membersOf program = membersOf other)
    (placed : (membersOf program)[place]? = some path) :
    (ofProgram digests program).resolutions[place]? = (ofProgram digests other).resolutions[place]? ↔
      (program.content path).2.2 = (other.content path).2.2 := by
  have also : (membersOf other)[place]? = some path := members ▸ placed
  refine ⟨successors_of_resolutions digests program placed also, fun same => ?_⟩
  obtain ⟨records, successors⟩ := Prod.mk.inj same
  have edges : (edgesOf program).getD place [] = (edgesOf other).getD place [] := by
    have sorted : ∀ read : SourceProgram T E O, ∃ targets : Finset ℕ,
        (edgesOf read).getD place [] = targets.sort (· ≤ ·) := by
      intro read
      rw [edgesOf, getD_eq_getElem?_getD, getElem?_map]
      cases (membersOf read)[place]? with
      | none => exact ⟨∅, by simp⟩
      | some path => exact ⟨_, rfl⟩
    obtain ⟨targets, first⟩ := sorted program
    obtain ⟨targets', second⟩ := sorted other
    have equal : targets = targets' := by
      ext target
      rw [← Finset.mem_sort (· ≤ ·), ← first, ← Finset.mem_sort (s := targets') (· ≤ ·), ← second,
        mem_edgesOf, mem_edgesOf, members]
      simp only [also, Option.some.injEq]
      constructor
      · rintro ⟨source, landed, rfl, found, edge⟩
        exact ⟨path, landed, rfl, found, successors ▸ edge⟩
      · rintro ⟨source, landed, rfl, found, edge⟩
        exact ⟨path, landed, rfl, found, successors ▸ edge⟩
    rw [first, second, equal]
  rw [resolutions_at digests program placed, resolutions_at digests other also]
  unfold recordsOf
  rw [records, edges]
  exact congrArg some (congrArg digests.resolutions (Prod.ext rfl
    (congrArg (fun paths => List.filterMap (fun target => paths[target]?) _) members)))

end Graph

private theorem mapM_none {X Z : Type} {make : X → Option Z} {items : List X} :
    items.mapM make = none ↔ ∃ item ∈ items, make item = none := by
  induction items with
  | nil => simp
  | cons item items ih =>
    rw [mapM_cons, exists_mem_cons_iff, ← ih]
    cases make item with
    | none => simp
    | some first => cases items.mapM make <;> simp

namespace PlacedProgram

open Graph hiding id

variable {T E O D : Type} {memory : ℕ → ProgramFile T} {old new : PlacedProgram memory E O}
  {path : Path}

private theorem fileAt_member (member : path ∈ new.members) :
    ∃ file ∈ new.files, file.path = path ∧ new.fileAt path = some file := by
  obtain ⟨file, held, same⟩ := new.mem_members.mp member
  cases found : new.fileAt path with
  | none =>
    have absent := find?_eq_none.mp found file held
    exact absurd (decide_eq_true same) absent
  | some other =>
    exact ⟨other, mem_of_find?_eq_some found, of_decide_eq_true (find?_some found :), rfl⟩

private theorem fileAt_memory {file : ProgramFile T} (found : new.fileAt path = some file) :
    memory (new.address path) = file := by
  have same : file.path = path := of_decide_eq_true (find?_some found :)
  rw [← same]
  exact new.held file (mem_of_find?_eq_some found)

private theorem textAt_eq (was : path ∈ old.members)
    (is : path ∈ new.members) (same : old.address path = new.address path) :
    old.textAt path = new.textAt path := by
  obtain ⟨first, -, -, found⟩ := fileAt_member was
  obtain ⟨second, -, -, found'⟩ := fileAt_member is
  have equal : first = second := by rw [← fileAt_memory found, ← fileAt_memory found', same]
  exact congrArg (Option.map ProgramFile.text) (found.trans (equal ▸ found'.symm))

private theorem reaches_iff_of_unmoved
    (unmoved : ∀ target, new.Reaches path target → ¬ Moved old new target) (target : Path) :
    old.Reaches path target ↔ new.Reaches path target := by
  have same : ∀ reached, new.Reaches path reached →
      old.successors reached = new.successors reached := by
    intro reached walk
    have content := not_not.mp (not_or.mp (unmoved reached walk)).2
    exact (Prod.mk.inj content).2
  constructor
  · intro reaches
    induction reaches with
    | refl => exact .refl
    | tail before edge ih => exact ih.tail (same _ ih ▸ edge)
  · intro reaches
    exact SourceProgram.reaches_of_successors reaches fun reached walk => (same reached walk).ge

variable [DecidableEq D] (digests : Digests T E O D)

variable (old new) in
abbrev seedOf := seedAt old new (ofProgram digests old.toSourceProgram)
  (ofProgram digests new.toSourceProgram)

private theorem seedAt_eq {place : ℕ}
    (members : membersOf old.toSourceProgram = membersOf new.toSourceProgram)
    (placed : (membersOf new.toSourceProgram)[place]? = some path) :
    (seedOf old new digests (path, place) = none ↔
        old.address path ≠ new.address path ∧ ∃ was is, old.fileAt path = some was ∧
          new.fileAt path = some is ∧ (was.ambient || is.ambient)) ∧
      (seedOf old new digests (path, place) = some (some place) → Moved old new path) ∧
      (seedOf old new digests (path, place) = some none → ¬ Moved old new path) := by
  have inside := mem_of_getElem? placed
  obtain ⟨is, -, -, now⟩ := fileAt_member (mem_membersOf.mp inside)
  obtain ⟨was, -, -, before⟩ := fileAt_member (mem_membersOf.mp (members.symm ▸ inside))
  have resolved := resolutions_iff digests members (members.symm ▸ placed)
  unfold seedOf seedAt Moved
  dsimp only
  simp only [before, now, ne_eq, ← resolved, Option.some.injEq]
  by_cases same : old.address path = new.address path
  · by_cases kept : (ofProgram digests old.toSourceProgram).resolutions[place]? =
        (ofProgram digests new.toSourceProgram).resolutions[place]?
    · simp [same, kept]
    · simp [same, kept]
  · by_cases ambient : (was.ambient || is.ambient)
    · simp [same, ambient]
    · simp [same, ambient]

private theorem seedAt_place {before after : Graph D} {entry : Path × ℕ} {place : ℕ}
    (gave : seedAt old new before after entry = some (some place)) : entry.2 = place := by
  unfold seedAt at gave
  split at gave
  · dsimp only at gave
    split_ifs at gave with spread moved
    · exact Option.some.inj (Option.some.inj gave)
    · exact nomatch gave
  · exact nomatch gave

private theorem membersOf_eq : membersOf old.toSourceProgram = membersOf new.toSourceProgram ↔
      old.members = new.members := by
  refine ⟨fun same => ?_, fun same => congrArg (Finset.sort · (· ≤ ·)) same⟩
  ext path
  rw [← mem_membersOf, same, mem_membersOf]

abbrev sourcesOf (program : SourceProgram T E O) (place : ℕ) : List ℕ :=
  (List.range (membersOf program).length).filter fun source =>
    decide (place ∈ (edgesOf program).getD source [])

private theorem visits_reaching (program : SourceProgram T E O) (seeds : List ℕ)
    (inside : ∀ seed ∈ seeds, seed < (membersOf program).length) :
    ∃ found, Closure.visits (sourcesOf program) ((membersOf program).length + 1)
        (seeds.foldl Closure.Walk.push ⟨[], ∅⟩) = some found ∧
      ∀ place path, (membersOf program)[place]? = some path → (place ∈ found ↔
        ∃ seed ∈ seeds, ∃ target, (membersOf program)[seed]? = some target ∧
          program.Reaches path target) := by
  have back : ∀ place source, source ∈ sourcesOf program place ↔
      place ∈ (edgesOf program).getD source [] := by
    intro place source
    rw [mem_filter, decide_eq_true_eq, mem_range, and_iff_right_iff_imp]
    intro edge
    obtain ⟨path, -, placed, -⟩ := mem_edgesOf.mp edge
    exact (List.getElem?_eq_some_iff.mp placed).1
  obtain ⟨found, returned, met⟩ := Closure.visits_seeds (sourcesOf program)
    (Finset.range (membersOf program).length)
    (fun place _ source edge => Finset.mem_range.mpr (mem_range.mp (mem_filter.mp edge).1))
    seeds (fun seed member => Finset.mem_range.mpr (inside seed member))
    (Nat.lt_succ_of_le (Finset.card_range _).le)
  refine ⟨found, returned, fun place path placed => ?_⟩
  rw [met]
  refine exists_congr fun seed => and_congr_right fun _ => ?_
  rw [← reaches_iff placed]
  unfold Closure.Reaches
  rw [← Relation.reflTransGen_swap]
  have swapped : Function.swap (Closure.Step (sourcesOf program)) = Closure.Step fun place => (edgesOf program).getD place [] := by
    funext first second
    exact propext (back second first)
  rw [swapped]

section

variable {seeds : List (Option ℕ)}
  (members : membersOf old.toSourceProgram = membersOf new.toSourceProgram)
  (seeded : (membersOf new.toSourceProgram).zipIdx.mapM (seedOf old new digests) = some seeds)

include members seeded

private theorem mem_seeds (place : ℕ) : place ∈ seeds.filterMap (fun seed => seed) ↔
    ∃ path, (membersOf new.toSourceProgram)[place]? = some path ∧ Moved old new path := by
  obtain ⟨forward, backward⟩ := mapM_some seeded
  rw [mem_filterMap]
  constructor
  · rintro ⟨seed, member, rfl⟩
    obtain ⟨⟨path, there⟩, entry, gave⟩ := backward _ member
    have placed := mem_zipIdx_iff_getElem?.mp entry
    obtain rfl := seedAt_place gave
    exact ⟨path, placed, (seedAt_eq digests members placed).2.1 gave⟩
  · rintro ⟨path, placed, moved⟩
    obtain ⟨seed, member, gave⟩ := forward (path, place) (mem_zipIdx_iff_getElem?.mpr placed)
    cases seed with
    | none => exact absurd moved ((seedAt_eq digests members placed).2.2 gave)
    | some there =>
      have same : place = there := seedAt_place gave
      exact ⟨some there, member, congrArg some same.symm⟩

private theorem address_eq_of_ambient {was is : ProgramFile T}
    (before : old.fileAt path = some was) (now : new.fileAt path = some is)
    (ambient : (was.ambient || is.ambient)) : old.address path = new.address path := by
  by_contra differ
  have member := new.mem_members.mpr
    ⟨is, mem_of_find?_eq_some now, of_decide_eq_true (find?_some now :)⟩
  obtain ⟨place, placed⟩ := place_of_member member
  obtain ⟨seed, -, gave⟩ := (mapM_some seeded).1 (path, place) (mem_zipIdx_iff_getElem?.mpr placed)
  rw [(seedAt_eq digests members placed).1.mpr ⟨differ, was, is, before, now, ambient⟩] at gave
  cases gave

private theorem mem_found {found : List ℕ} (met : ∀ place path,
      (membersOf new.toSourceProgram)[place]? = some path → (place ∈ found ↔
        ∃ seed ∈ seeds.filterMap (fun seed => seed), ∃ target,
          (membersOf new.toSourceProgram)[seed]? = some target ∧
            new.Reaches path target)) (path : Path) :
    path ∈ found.filterMap (fun place => (membersOf new.toSourceProgram)[place]?) ↔
      path ∈ new.members ∧ ∃ target, new.Reaches path target ∧ Moved old new target := by
  rw [mem_filterMap]
  constructor
  · rintro ⟨place, visited, placed⟩
    obtain ⟨seed, member, target, there, reaches⟩ := (met place path placed).mp visited
    obtain ⟨moving, at_seed, moved⟩ := (mem_seeds digests members seeded seed).mp member
    cases there.symm.trans at_seed
    exact ⟨mem_membersOf.mp (mem_of_getElem? placed), target, reaches, moved⟩
  · rintro ⟨member, target, reaches, moved⟩
    obtain ⟨place, placed⟩ := place_of_member member
    obtain ⟨seed, there⟩ := place_of_member (new.reaches_member member reaches)
    have listed := (mem_seeds digests members seeded seed).mpr ⟨target, there, moved⟩
    exact ⟨place, (met place path placed).mpr ⟨seed, listed, target, there, reaches⟩, placed⟩

end

variable [DecidableEq O]

private theorem rebuiltExportRescan_eq (old new : PlacedProgram memory E O) :
    rebuiltExportRescan digests old new = if old.options ≠ new.options then none
      else if membersOf old.toSourceProgram ≠ membersOf new.toSourceProgram then none
      else ((membersOf new.toSourceProgram).zipIdx.mapM (seedOf old new digests)).bind fun seeds =>
          (Closure.visits (sourcesOf new.toSourceProgram)
            ((membersOf new.toSourceProgram).length + 1)
            ((seeds.filterMap fun seed => seed).foldl Closure.Walk.push ⟨[], ∅⟩)).map
              fun found => found.filterMap fun place =>
                (membersOf new.toSourceProgram)[place]? := rfl

/-- The rescan gives up exactly if the change is not confined; otherwise it names the files that
reach a file that moved, and every other file reaches the same files, texts and resolutions in both
programs. -/
theorem export_rescan_exact (old new : PlacedProgram memory E O) :
    match rebuiltExportRescan digests old new with
    | none => Unconfined old new
    | some found => ¬ Unconfined old new ∧
        (∀ path, path ∈ found ↔ path ∈ new.toSourceProgram.members ∧
          ∃ target, new.toSourceProgram.Reaches path target ∧ Moved old new target) ∧
        ∀ path ∈ new.toSourceProgram.members, path ∉ found → ∀ target,
          (old.toSourceProgram.Reaches path target ↔ new.toSourceProgram.Reaches path target) ∧
            (new.toSourceProgram.Reaches path target →
              old.address target = new.address target ∧
              old.toSourceProgram.textAt target = new.toSourceProgram.textAt target ∧
              (old.toSourceProgram.content target).2.2 =
                (new.toSourceProgram.content target).2.2) := by
  rw [rebuiltExportRescan_eq]
  by_cases options : old.options = new.options
  swap
  · rw [if_pos options]
    exact .inl options
  rw [if_neg (not_not.mpr options)]
  by_cases members : membersOf old.toSourceProgram = membersOf new.toSourceProgram
  swap
  · rw [if_pos members]
    exact .inr (.inl fun same => members (membersOf_eq.mpr same))
  rw [if_neg (not_not.mpr members)]
  have shared := membersOf_eq.mp members
  cases seeded : (membersOf new.toSourceProgram).zipIdx.mapM (seedOf old new digests) with
  | none =>
    obtain ⟨⟨path, place⟩, entry, gave⟩ := mapM_none.mp seeded
    have spread := (seedAt_eq digests members (mem_zipIdx_iff_getElem?.mp entry)).1.mp gave
    exact .inr (.inr ⟨path, spread⟩)
  | some seeds =>
    obtain ⟨found, returned, met⟩ := visits_reaching new.toSourceProgram
      (seeds.filterMap fun seed => seed) (fun seed member => by
        obtain ⟨path, placed, -⟩ := (mem_seeds digests members seeded seed).mp member
        exact (List.getElem?_eq_some_iff.mp placed).1)
    rw [Option.bind_some, returned]
    have confined : ¬ Unconfined old new := by
      rintro (differ | differ | ⟨path, differ, was, is, before, now, ambient⟩)
      · exact differ options
      · exact differ shared
      · exact differ (address_eq_of_ambient digests members seeded before now ambient)
    have named := mem_found digests members seeded met
    refine ⟨confined, named, fun path member outside target => ?_⟩
    have unmoved : ∀ target, new.Reaches path target →
        ¬ Moved old new target := fun target reaches moved =>
      outside ((named path).mpr ⟨member, target, reaches, moved⟩)
    refine ⟨reaches_iff_of_unmoved unmoved target, fun reaches => ?_⟩
    obtain ⟨identical, resolved⟩ := not_or.mp (unmoved target reaches)
    have inside := new.reaches_member member reaches
    exact ⟨not_not.mp identical, textAt_eq (shared ▸ inside) inside (not_not.mp identical),
      not_not.mp resolved⟩

def soleFile (address : ℕ) : ProgramFile ℕ := ⟨['a'], address, false⟩

def placedAt (address : ℕ) : PlacedProgram soleFile Unit Unit where
  files := [soleFile address]
  getSourceFile _ := none
  resolutions := 0
  exports _ := ()
  options := ()
  distinct := List.nodup_singleton _
  found _ _ absent := nomatch absent
  address _ := address
  held file member := by rw [List.mem_singleton.mp member]

/-- A file that was written anew is rescanned. -/
theorem export_rescan_exact_of_written : ∃ found,
    rebuiltExportRescan (.encoded ℕ Unit Unit) (placedAt 0) (placedAt 1) = some found ∧
      ['a'] ∈ found := by
  have rescan := export_rescan_exact (.encoded ℕ Unit Unit) (placedAt 0) (placedAt 1)
  cases ran : rebuiltExportRescan (.encoded ℕ Unit Unit) (placedAt 0) (placedAt 1) with
  | none =>
    rw [ran] at rescan
    rcases rescan with differ | differ | ⟨path, -, was, is, before, now, ambient⟩
    · exact absurd rfl differ
    · exact absurd rfl differ
    · rw [List.mem_singleton.mp (List.mem_of_find?_eq_some before),
        List.mem_singleton.mp (List.mem_of_find?_eq_some now)] at ambient
      exact nomatch ambient
  | some found =>
    rw [ran] at rescan
    have member : ['a'] ∈ (placedAt 1).toSourceProgram.members := by decide
    exact ⟨found, rfl, (rescan.2.1 _).mpr ⟨member, _, .refl, .inl Nat.zero_ne_one⟩⟩

end PlacedProgram

end SolidChecker.Producer
