/- source: apps/solid-typefacts/src/retained.rs, closure.rs -/

import SolidChecker.Producer.Versions

namespace SolidChecker.Producer

open Foundation List Option

variable {H K F A C X : Type}

def rowsOf (meaning : Path → ℕ → List (EntityFact F) × List A) (path : Path) :
    Option (Option ℕ × Option H) → PathRows H (EntityFact F) A
  | none => PathRows.empty
  | some (version, digest) =>
    let held := (version.map (meaning path)).getD ([], [])
    ⟨digest, held.1, digest.map fun _ => held.2⟩

structure PathVersions.Describe (meaning : Path → ℕ → List (EntityFact F) × List A) (next : ℕ)
    (versions : PathVersions H) (table : ProducerTable H (EntityFact F) A) : Prop where
  clean : ∀ path digest, versions.get path = some digest → path.clean = path
  bounded : ∀ path version digest, versions.get path = some (some version, digest) → version ≤ next
  rows : ∀ path, table.rows path = rowsOf meaning path (versions.get path)

section

variable {meaning extended : Path → ℕ → List (EntityFact F) × List A} {next later : ℕ}
  {now before : PathVersions H} {target base : ProducerTable H (EntityFact F) A}

theorem PathVersions.Describe.extend (describe : before.Describe meaning next base)
    (grows : next ≤ later)
    (older : ∀ path version, version ≤ next → extended path version = meaning path version) :
    before.Describe extended later base := by
  refine ⟨describe.clean,
    fun path version digest found => (describe.bounded path version digest found).trans grows,
    fun path => ?_⟩
  rw [describe.rows path]
  match found : before.get path with
  | none => rfl
  | some (none, digest) => rfl
  | some (some version, digest) =>
    have same := older path version (describe.bounded path version digest found)
    simp only [rowsOf, map_some, getD_some, same]

variable {path : Path}

private theorem get_eq_none (versions : PathVersions H)
    (absent : path ∉ versions.digests.keys) : versions.get path = none := by
  rw [PathVersions.get, Finmap.lookup_eq_none.mpr (mt Finmap.mem_keys.mpr absent), map_none]

private theorem clean_of_mem (describe : now.Describe meaning next target)
    (member : path ∈ now.digests.keys) : path.clean = path := by
  obtain ⟨digest, found⟩ := Finmap.mem_iff.mp (Finmap.mem_keys.mp member)
  exact describe.clean path _ (by rw [PathVersions.get, found, map_some])

theorem mem_changedVersions [DecidableEq H] (target_described : now.Describe meaning next target)
    (base_described : before.Describe meaning later base)
    (differ : target.rows path ≠ base.rows path) :
    path.clean = path ∧ path ∈ DemandClosure.changedVersions now before := by
  rw [target_described.rows, base_described.rows] at differ
  have changed : before.get path ≠ now.get path := fun same => differ (by rw [same])
  simp only [DemandClosure.changedVersions, Finset.mem_union, Finset.mem_filter, decide_eq_true_eq]
  by_cases current : path ∈ now.digests.keys
  · exact ⟨clean_of_mem target_described current, .inl ⟨current, changed⟩⟩
  · have held : path ∈ before.digests.keys := by
      by_contra absent
      exact changed (by rw [get_eq_none now current, get_eq_none before absent])
    exact ⟨clean_of_mem base_described held, .inr ⟨held, current⟩⟩

end

section

variable {V : Type} {rows : List (Path × V)}

theorem checkDigests_ok {previous : Option Path} {digests : List (Path × H)}
    (checked : checkDigests previous digests = .ok ()) :
    (∀ digest ∈ digests, digest.1.clean = digest.1 ∧ ∀ path ∈ previous, path < digest.1) ∧
      digests.Pairwise fun left right => left.1 < right.1 := by
  induction digests generalizing previous with
  | nil => exact ⟨nofun, .nil⟩
  | cons digest later ih =>
    rw [checkDigests] at checked
    split at checked
    · exact nomatch checked
    · rename_i clean
      rw [not_or, not_not] at clean
      split at checked
      · exact nomatch checked
      · rename_i above
        have above : ∀ path ∈ previous, path < digest.1 := fun path named => by
          simpa [mem_def.mp named] using above
        obtain ⟨rest, ordered⟩ := ih checked
        have below : ∀ other ∈ later, digest.1 < other.1 := fun other member =>
          (rest other member).2 digest.1 rfl
        refine ⟨fun other member => ?_, pairwise_cons.mpr ⟨below, ordered⟩⟩
        rcases mem_cons.mp member with rfl | member
        · exact ⟨clean.2, above⟩
        · exact ⟨(rest other member).1,
            fun path named => (above path named).trans (below other member)⟩

private theorem distinct_of_ordered (ordered : rows.Pairwise fun left right => left.1 < right.1) :
    (rows.map Prod.fst).Nodup :=
  pairwise_map.mpr (ordered.imp fun below => ne_of_lt below)

private theorem rowAt_eq_lookup (ordered : rows.Pairwise fun left right => left.1 < right.1) (path : Path) :
    rowAt rows path = (Table.collect rows).lookup path := by
  refine Option.ext fun value => ?_
  rw [rowAt_eq_some_iff ordered, Table.lookup_collect (distinct_of_ordered ordered)]

private theorem ordered_map (ordered : rows.Pairwise fun left right => left.1 < right.1) {W : Type}
    (make : Path → V → W) : (rows.map fun row => (row.1, make row.1 row.2)).Pairwise
      fun left right => left.1 < right.1 := pairwise_map.mpr ordered

theorem rowAt_map (ordered : rows.Pairwise fun left right => left.1 < right.1) {W : Type}
    (make : Path → V → W) (path : Path) :
    rowAt (rows.map fun row => (row.1, make row.1 row.2)) path =
      (rowAt rows path).map (make path) := by
  refine Option.ext fun value => ?_
  rw [rowAt_eq_some_iff (ordered_map ordered make), map_eq_some_iff]
  constructor
  · intro member
    obtain ⟨row, inside, same⟩ := mem_map.mp member
    cases same
    exact ⟨row.2, (rowAt_eq_some_iff ordered _).mpr inside, rfl⟩
  · rintro ⟨held, found, rfl⟩
    exact mem_map.mpr ⟨(path, held), mem_of_rowAt found, rfl⟩

private theorem rowAt_filter {E : Type} {runs : List (Path × List E)}
    (ordered : runs.Pairwise fun left right => left.1 < right.1) (path : Path) :
    (rowAt (runs.filter fun run => run.2 ≠ []) path).getD [] = (rowAt runs path).getD [] := by
  have kept := ordered.filter fun run => run.2 ≠ []
  cases found : rowAt runs path with
  | none =>
    cases filtered : rowAt (runs.filter fun run => run.2 ≠ []) path with
    | none => rfl
    | some rows =>
      have member := (mem_filter.mp (mem_of_rowAt filtered)).1
      rw [(rowAt_eq_some_iff ordered rows).mpr member] at found
      exact nomatch found
  | some rows =>
    by_cases empty : rows = []
    · cases filtered : rowAt (runs.filter fun run => run.2 ≠ []) path with
      | none => exact empty.symm
      | some others =>
        have member := (mem_filter.mp (mem_of_rowAt filtered)).1
        rw [(rowAt_eq_some_iff ordered others).mpr member] at found
        exact Option.some.inj found
    · have member : (path, rows) ∈ runs.filter fun run => run.2 ≠ [] :=
        mem_filter.mpr ⟨mem_of_rowAt found, decide_eq_true empty⟩
      rw [(rowAt_eq_some_iff kept rows).mpr member]

end

section

variable {V W : Type} {passes : PassOutputs V W F X}
  {meaning : Path → ℕ → List (EntityFact F) × List (AsyncFunctionFact X)} {state : PerFile W F X}
  {sources : List (Path × H)} {groups : List (DemandGroup K C)}

theorem PerFile.rowAt_served (length : state.served.length = state.servedPaths.length)
    (ordered : state.servedPaths.Pairwise (· < ·)) (path : Path) :
    (rowAt ((state.servedPaths.zip (state.served.map Served.rows)).filter fun run =>
      run.2 ≠ []) path).getD [] = (state.held path).1 := by
  have runs : (state.servedPaths.zip state.served).Pairwise fun left right => left.1 < right.1 := by
    rw [← pairwise_map (f := Prod.fst) (R := (· < ·)), map_fst_zip length.ge]
    exact ordered
  have mapped : (state.servedPaths.zip state.served).map (fun run => (run.1, run.2.rows)) =
      state.servedPaths.zip (state.served.map Served.rows) := (zip_map_right ..).symm
  have rows := rowAt_map runs (fun _ => Served.rows) path
  rw [← mapped, rowAt_filter (pairwise_map.mpr runs), rows, rowAt_eq_lookup runs]
  rfl

private theorem groups_lookup (digests : Finmap fun _ : Path => Option H) (path : Path) :
    (groups.foldl (fun digests group => if group.path ∈ digests then digests
      else digests.insert group.path none) digests).lookup path =
      (digests.lookup path).or (if path ∈ groups.map DemandGroup.path then some none else none) := by
  induction groups generalizing digests with
  | nil => simp
  | cons group groups ih =>
    rw [foldl_cons, ih]
    by_cases held : group.path ∈ digests
    · rw [if_pos held]
      by_cases same : path = group.path
      · obtain ⟨digest, found⟩ := Finmap.mem_iff.mp (same ▸ held)
        simp [found]
      · simp [same]
    · rw [if_neg held, Table.lookup_insert_eq]
      by_cases same : path = group.path
      · subst same
        simp [Finmap.lookup_eq_none.mpr held]
      · simp [same]

variable {ω : Type} [DecidableEq V] [DecidableEq W] [DecidableEq X]
  {compiler : Compiler ω H K W F X} {project : Project ω W F X}

omit [DecidableEq V] [DecidableEq W] [DecidableEq X] in
private theorem held_of_version (sound : project.perFile.Sound passes meaning)
    (valid : project.perFile.versionsValid) (path : Path) :
    ((project.perFile.versions.version path).map (meaning path)).getD ([], []) =
      project.perFile.held path := by
  have means := sound.means
  rw [show project.perFile.stamps = project.perFile.versions from if_pos valid] at means
  cases found : project.perFile.versions.version path with
  | none => exact (means.unversioned path found).symm
  | some version => exact (means.versioned path version found).2.symm

variable {now : PathVersions H}

theorem valid_of_tracked
    (tracked : DemandClosure.versionsNow (Project.backend compiler passes) project sources groups =
      some now) : project.perFile.versionsValid := by
  unfold DemandClosure.versionsNow at tracked
  split at tracked
  · rename_i tracks
    by_contra invalid
    simp [Project.backend, PerFile.contentVersion, invalid] at tracks
  · exact nomatch tracked

theorem versionsNow_describe (sound : project.perFile.Sound passes meaning)
    (ordered : sources.Pairwise fun left right => left.1 < right.1)
    {table : ProducerTable H (EntityFact F) (AsyncFunctionFact X)} (rows : table.sources = sources)
    (entities : ∀ path, (rowAt table.entities path).getD [] = (project.perFile.held path).1)
    (files : table.files = sources.map fun source => (source.1, (project.perFile.held source.1).2))
    (outside : ∀ path ∉ groups.map DemandGroup.path, (project.perFile.held path).1 = [])
    (clean : ∀ path, (∃ source ∈ sources, source.1 = path) ∨ path ∈ groups.map DemandGroup.path →
      path.clean = path) (tracked : DemandClosure.versionsNow (Project.backend compiler passes)
      project sources groups = some now) :
    now.Describe meaning project.perFile.versions.next table := by
  have valid := valid_of_tracked tracked
  unfold DemandClosure.versionsNow at tracked
  split at tracked
  · have version : ∀ path, (Project.backend compiler passes).contentVersion project path =
        project.perFile.versions.version path := fun path => by
      simp [Project.backend, PerFile.contentVersion, valid]
    have held := held_of_version sound valid
    have get : ∀ path, now.get path = (((rowAt sources path).map some).or
        (if path ∈ groups.map DemandGroup.path then some none else none)).map fun digest =>
          (project.perFile.versions.version path, digest) := by
      intro path
      cases tracked
      have digests := rowAt_map ordered (fun _ digest => some digest) path
      rw [rowAt_eq_lookup (ordered_map ordered fun _ digest => some digest)] at digests
      simp only [PathVersions.get, groups_lookup, digests, version]
    refine ⟨fun path digest found => ?_, fun path number digest found => ?_, fun path => ?_⟩
    · apply clean
      rw [get, map_eq_some_iff] at found
      obtain ⟨digest, found, -⟩ := found
      cases source : rowAt sources path with
      | some digest => exact .inl ⟨_, mem_of_rowAt source, rfl⟩
      | none =>
        refine .inr ?_
        by_contra absent
        simp [source, absent] at found
    · rw [get, map_eq_some_iff] at found
      obtain ⟨_, -, found⟩ := found
      have means := sound.means
      rw [show project.perFile.stamps = project.perFile.versions from if_pos valid] at means
      exact (means.versioned path number (Prod.mk.inj found).1).1
    · have file := rowAt_map ordered (fun path _ => (project.perFile.held path).2) path
      rw [ProducerTable.rows, PathRows.ofTable, entities, files, file, rows, get]
      cases source : rowAt sources path with
      | some digest => simp [rowsOf, held]
      | none =>
        by_cases grouped : path ∈ groups.map DemandGroup.path
        · simp [rowsOf, held, grouped]
        · simp [rowsOf, PathRows.empty, grouped, outside path grouped]
  · exact nomatch tracked

end

end SolidChecker.Producer
