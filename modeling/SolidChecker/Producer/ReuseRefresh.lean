/- source: apps/solid-typefacts/src/passes.rs -/

import SolidChecker.Foundation.Asking
import SolidChecker.Producer.Census
import SolidChecker.Producer.ReuseGraph

namespace SolidChecker.Producer

open Foundation List

variable {T E O D N K U : Type}

structure PassReads (T E O K : Type) where
  options : O
  contributors : List (Path × T)
  path : Path
  run : Option (List (EntityDemand K))
  locations : List Location
  scan : Bool
  inputs : Path → Option (Option T × E × Multiset Record × Finset Path)

open Classical in
noncomputable def SourceProgram.passReads (program : SourceProgram T E O) (path : Path)
    (run : Option (List (EntityDemand K))) (locations : List Location) (scan : Bool) :
    PassReads T E O K :=
  ⟨program.options, program.ambient, path, run, locations, scan, fun target =>
    if program.Reads path.clean target then some (program.content target) else none⟩

/-- A kept output that a run of the pass over the program gives under some census. -/
structure Entry.Holds (pass : PassReads T E O K → Asking N U) (program : SourceProgram T E O)
    (path : Path) (entry : Entry N K U) : Prop where
  member : path.clean ∈ program.members
  reads : Graph.Indexes program (program.Reads path.clean) entry.reads
  output : ∃ oracle, (pass (program.passReads path entry.demands entry.locations entry.scan)).run
    oracle = (entry.output.value, entry.output.census)

variable {pass : PassReads T E O K → Asking N U} {path : Path}

private theorem Entry.Holds.carry {program other : SourceProgram T E O} {entry : Entry N K U}
    (holds : entry.Holds pass program path) (options : other.options = program.options)
    (ambient : other.ambient = program.ambient)
    (same : ∀ target, program.Reads path.clean target →
      target ∈ other.members ∧ other.content target = program.content target)
    {reads : Finset ℕ} (indexes : Graph.Indexes other (other.Reads path.clean) reads) :
    ({ entry with reads } : Entry N K U).Holds pass other path := by
  have agree := SourceProgram.reads_iff ambient fun target reads =>
    congrArg (fun content => content.2.2.2) (same target reads).2
  refine ⟨(same _ (.inr .refl)).1, indexes, ?_⟩
  obtain ⟨oracle, ran⟩ := holds.output
  refine ⟨oracle, ran ▸ congrArg (fun reads => (pass reads).run oracle) ?_⟩
  rw [SourceProgram.passReads, SourceProgram.passReads, options, ambient]
  refine congrArg (PassReads.mk _ _ _ _ _ _) (funext fun target => ?_)
  by_cases reads : program.Reads path.clean target
  · rw [if_pos reads, if_pos ((agree target).mpr reads), (same target reads).2]
  · rw [if_neg reads, if_neg fun read => reads ((agree target).mp read)]

/-- What a table leaves: the program's own graph, inputs and census, and entries that hold in it. -/
structure Reuse.Settled (digests : Digests T E O D) (syntaxes : FileSyntax T N)
    (pass : PassReads T E O K → Asking N U) (program : SourceProgram T E O)
    (reuse : Reuse D N K U) [DecidableEq N] : Prop where
  graph : reuse.graph = some (Graph.ofProgram digests program)
  options : reuse.options = some (digests.options program.options)
  ambient : reuse.ambient = some (Reuse.ambientDigest digests program)
  ambientReads : Graph.Indexes program program.AmbientReads reuse.ambientReads
  ambientPaths : ∀ path, path ∈ reuse.ambientPaths ↔ path ∈ program.ambient.map Prod.fst
  snapshot : reuse.snapshot = Reuse.snapshotOf digests program (Graph.ofProgram digests program)
  entries : ∀ path entry, reuse.entries path = some entry → entry.Holds pass program path
  counted : ∀ writes, reuse.censusWrites = some writes →
    Counted digests syntaxes program.files (reuse.censusFiles, writes)

namespace SourceProgram

structure Since (base : SourceProgram T E O) (replaced : Finset Path) (program : SourceProgram T E O) :
    Prop where
  files : List.Forall₂ (fun old new : ProgramFile T =>
    old.name = new.name ∧ (old = new ∨ new.path ∈ replaced)) base.files program.files
  resolutions : program.resolutions = base.resolutions

namespace Since

variable {base middle program : SourceProgram T E O} {replaced later : Finset Path}

theorem refl (program : SourceProgram T E O) (replaced : Finset Path) :
    program.Since replaced program :=
  ⟨forall₂_same.mpr fun _ _ => ⟨rfl, .inl rfl⟩, rfl⟩

private theorem forall₂_trans {X Y Z : Type} {first : X → Y → Prop} {second : Y → Z → Prop}
    {both : X → Z → Prop} (compose : ∀ x y z, first x y → second y z → both x z)
    {xs : List X} {ys : List Y} {zs : List Z} (before : List.Forall₂ first xs ys)
    (after : List.Forall₂ second ys zs) : List.Forall₂ both xs zs := by
  induction before generalizing zs with
  | nil => cases after; exact .nil
  | cons head _ ih =>
    cases after with
    | cons next rest => exact .cons (compose _ _ _ head next) (ih rest)

theorem trans (before : base.Since replaced middle) (after : middle.Since later program) :
    base.Since (replaced ∪ later) program := by
  refine ⟨forall₂_trans ?_ before.files after.files, after.resolutions.trans before.resolutions⟩
  rintro old _ new ⟨named, same⟩ ⟨renamed, kept⟩
  refine ⟨named.trans renamed, ?_⟩
  rcases kept with rfl | moved
  · exact same.imp_right fun moved => Finset.mem_union_left _ moved
  · exact .inr (Finset.mem_union_right _ moved)

variable (since : base.Since replaced program)

include since

private theorem paths : program.files.map ProgramFile.path = base.files.map ProgramFile.path := by
  have pairs := since.files
  generalize base.files = olds, program.files = news at pairs ⊢
  induction pairs with
  | nil => rfl
  | cons pair _ ih =>
    rw [map_cons, map_cons, ih]
    exact congrArg (· :: _) (congrArg Path.clean pair.1.symm)

private theorem membersOf : Graph.membersOf program = Graph.membersOf base := by
  rw [Graph.membersOf, Graph.membersOf, since.paths]

private theorem members : program.members = base.members := by
  rw [SourceProgram.members, SourceProgram.members, since.paths]

private theorem successors : program.successors = base.successors := by
  funext path
  rw [SourceProgram.successors, SourceProgram.successors, since.members, since.resolutions]

private theorem reaches : program.Reaches = base.Reaches := by
  unfold Reaches
  rw [since.successors]

private theorem ofProgram (digests : Digests T E O D) :
    Graph.ofProgram digests program = Graph.ofProgram digests base := by
  have edges : Graph.edgesOf program = Graph.edgesOf base := by
    rw [Graph.edgesOf, Graph.edgesOf, since.membersOf, since.resolutions]
  rw [Graph.ofProgram, Graph.ofProgram, Graph.build, Graph.build, since.membersOf, edges,
    Graph.computeResolutions, Graph.computeResolutions]
  simp only [Graph.recordsOf, since.resolutions]

private theorem indexes {paths : Path → Prop} {bits : Finset ℕ} (held : Graph.Indexes base paths bits) :
    Graph.Indexes program paths bits := by
  rwa [Graph.Indexes, since.membersOf]

private theorem ambientReads (ambient : program.ambient = base.ambient) :
    program.AmbientReads = base.AmbientReads := by
  unfold AmbientReads
  rw [ambient, since.reaches]

private theorem reads (ambient : program.ambient = base.ambient) : program.Reads = base.Reads := by
  unfold Reads
  rw [since.ambientReads ambient, since.reaches]

private theorem textAt (kept : path ∉ replaced) : program.textAt path = base.textAt path := by
  unfold SourceProgram.textAt
  have pairs := since.files
  generalize base.files = olds, program.files = news at pairs ⊢
  induction pairs with
  | nil => rfl
  | cons pair _ ih =>
    obtain ⟨named, rfl | moved⟩ := pair
    · rw [find?_cons, find?_cons]
      split
      · rfl
      · exact ih
    · have elsewhere : ∀ file : ProgramFile T, file.path ∈ replaced →
          decide (file.path = path) = false := fun file inside =>
        decide_eq_false fun same => kept (same ▸ inside)
      have from_path := congrArg Path.clean named
      rw [find?_cons, find?_cons, elsewhere _ moved,
        elsewhere _ (show ProgramFile.path _ ∈ replaced by rw [ProgramFile.path, from_path]; exact moved)]
      exact ih

private theorem ambient (was : ∀ file ∈ base.files, file.path ∈ replaced → file.ambient = false)
    (is : ∀ file ∈ program.files, file.path ∈ replaced → file.ambient = false) :
    program.ambient = base.ambient := by
  unfold SourceProgram.ambient
  have pairs := since.files
  generalize base.files = olds, program.files = news at pairs was is ⊢
  induction pairs with
  | nil => rfl
  | @cons old new olds news pair _ ih =>
    have rest := ih (fun file member => was file (mem_cons_of_mem _ member))
      (fun file member => is file (mem_cons_of_mem _ member))
    obtain ⟨named, rfl | moved⟩ := pair
    · rw [filter_cons, filter_cons]
      split
      · rw [map_cons, map_cons, rest]
      · exact rest
    · have from_path : old.path = new.path := congrArg Path.clean named
      rw [filter_cons_of_neg, filter_cons_of_neg]
      · exact rest
      · rw [was old mem_cons_self (from_path ▸ moved)]
        exact Bool.false_ne_true
      · rw [is new mem_cons_self moved]
        exact Bool.false_ne_true

end Since

end SourceProgram

namespace Reuse

open Graph hiding id

variable {digests : Digests T E O D} {syntaxes : FileSyntax T N}
  {base program : SourceProgram T E O} {reuse : Reuse D N K U} {replaced : Finset Path}
  {entry : Entry N K U} {path : Path} {ambientReads : Finset ℕ}

private theorem ambient_of_digest (same : ambientDigest digests base = ambientDigest digests program) :
    program.ambient = base.ambient := by
  have mapped := digests.ambient_injective same
  refine (map_injective_iff.mpr ?_ mapped).symm
  rintro ⟨path, text⟩ ⟨other, moved⟩ equal
  rw [Prod.mk.injEq] at equal
  exact Prod.ext equal.1 (digests.text_injective equal.2)

variable {old graph : Graph D}

private theorem moveEntry_reads {entry moved : Entry N K U}
    (found : moveEntry old graph ambientReads path entry = some moved) :
    ∃ place, graph.id path = some place ∧
      moved = { entry with reads := graph.close [place] ambientReads } := by
  obtain ⟨place, placed, rest⟩ := Option.bind_eq_some_iff.mp found
  exact ⟨place, placed, (Option.some.inj (Option.ite_none_left_eq_some.mp rest).2).symm⟩

private theorem snapshot_kept (since : base.Since replaced program)
    (kept : path ∉ replaced) (exports : program.exports path = base.exports path) :
    snapshotOf digests program (ofProgram digests program) path =
      snapshotOf digests base (ofProgram digests base) path := by
  rw [since.ofProgram digests, snapshotOf, snapshotOf, since.textAt kept, exports]

variable {file : ProgramFile T}

private theorem replacedFile_some {graph : Graph D}
    (found : replacedFile program reuse graph path = some file) :
    file ∈ program.files ∧ file.path = path ∧ file.ambient = false ∧ path ∉ reuse.ambientPaths := by
  obtain ⟨read, passed⟩ := Option.filter_eq_some_iff.mp found
  simp only [Bool.and_eq_true, decide_eq_true_eq, Bool.not_eq_true', and_assoc] at passed
  exact ⟨program.found path file read, passed.1, passed.2.2.1, passed.2.2.2⟩

section

variable {files : List (ProgramFile T)}
  (read : (replaced.sort (· ≤ ·)).mapM
    (replacedFile program reuse (ofProgram digests base)) = some files)

include read

private theorem mem_replacedFiles : file ∈ files ↔ file ∈ program.files ∧ file.path ∈ replaced := by
  obtain ⟨forward, backward⟩ := mapM_some read
  constructor
  · intro member
    obtain ⟨path, listed, found⟩ := backward file member
    obtain ⟨inside, named, -⟩ := replacedFile_some found
    exact ⟨inside, named ▸ (Finset.mem_sort _).mp listed⟩
  · rintro ⟨inside, listed⟩
    obtain ⟨other, member, found⟩ := forward file.path ((Finset.mem_sort _).mpr listed)
    obtain ⟨other_inside, named, -⟩ := replacedFile_some found
    rwa [← inj_on_of_nodup_map program.distinct other_inside inside named]

variable [DecidableEq N] (settled : reuse.Settled digests syntaxes pass base)
  (since : base.Since replaced program)

include settled since

private theorem replaced_ambient : program.ambient = base.ambient := by
  obtain ⟨forward, backward⟩ := mapM_some read
  refine since.ambient (fun file inside listed => ?_) fun file inside listed => ?_
  · obtain ⟨other, -, found⟩ := forward file.path ((Finset.mem_sort _).mpr listed)
    obtain ⟨-, -, -, local_path⟩ := replacedFile_some found
    by_contra ambient
    refine local_path ((settled.ambientPaths file.path).mpr ?_)
    rw [SourceProgram.ambient, map_map]
    exact mem_map_of_mem (mem_filter.mpr ⟨inside, by simpa using ambient⟩)
  · obtain ⟨path, -, found⟩ := backward file ((mem_replacedFiles read).mpr ⟨inside, listed⟩)
    exact (replacedFile_some found).2.2.1

private theorem inputsNow_text (member : path ∈ base.members) :
    (if path ∈ replaced then
        (files.find? fun file => file.path = path).map fun file => digests.text file.text
      else (reuse.snapshot path).bind Prod.fst) = (program.textAt path).map digests.text := by
  split
  · next listed =>
      obtain ⟨file, inside, named⟩ := program.mem_members.mp (since.members ▸ member)
      have held := (mem_replacedFiles read).mpr ⟨inside, named ▸ listed⟩
      have some_file : (files.find? fun file => file.path = path).isSome :=
        find?_isSome.mpr ⟨file, held, decide_eq_true named⟩
      obtain ⟨other, found⟩ := Option.isSome_iff_exists.mp some_file
      have here := find?_some found
      have other_inside := ((mem_replacedFiles read).mp (mem_of_find?_eq_some found)).1
      rw [found, ← of_decide_eq_true here, program.textAt_of_mem other_inside]
      rfl
  · next kept =>
      obtain ⟨place, placed⟩ := place_of_member member
      rw [settled.snapshot, snapshotOf_place digests base placed,
        resolutions_at digests base placed, since.textAt kept]
      rfl

private theorem inputsNow_right {one : ℕ × Path × PathInputs D}
    (noted : inputsNow digests program reuse (ofProgram digests base) replaced files path =
      some one) :
    one.2.1 = path ∧ (ofProgram digests base).id path = some one.1 ∧
      snapshotOf digests program (ofProgram digests program) path = some one.2.2 := by
  obtain ⟨place, placed, noted⟩ := Option.bind_eq_some_iff.mp noted
  obtain ⟨resolutions, resolved, noted⟩ := Option.bind_eq_some_iff.mp noted
  have member := mem_membersOf.mp (mem_of_getElem? ((ofProgram_id digests base).mp placed))
  cases noted
  refine ⟨rfl, placed, ?_⟩
  rw [since.ofProgram digests, snapshotOf, placed, Option.bind_eq_bind, Option.bind_some, resolved,
    inputsNow_text read settled since member]
  rfl

end

variable [DecidableEq D]

private theorem graphNow_eq
    (held : ∀ old, reuse.graph = some old → old = ofProgram digests base)
    (since : reuse.rebuilt = false → base.Since replaced program) :
    graphNow digests program reuse = ofProgram digests program := by
  unfold graphNow
  dsimp only
  split
  · next old found =>
      split
      · next kept =>
          -- the records were not computed again: they are those of the program the graph is of
          rw [held old found, ← (since kept.1).ofProgram digests]
          rfl
      · rfl
  · rfl

variable {snapshot : Path → Option (PathInputs D)}

private theorem moveEntries_entry
    (found : (reuse.moveEntries old graph snapshot ambientReads).entries path = some entry) :
    ∃ kept, reuse.entries path = some kept ∧
      Disjoint kept.reads ((Finset.range old.paths.length).filter fun place =>
        (old.paths[place]?).any fun path => snapshot path ≠ reuse.snapshot path) ∧
      if old.digest ≠ graph.digest then moveEntry old graph ambientReads path kept = some entry
      else entry = kept := by
  unfold moveEntries at found
  split at found
  · next moved =>
      obtain ⟨kept, retained, placed⟩ := Option.bind_eq_some_iff.mp found
      obtain ⟨held, apart⟩ := Option.filter_eq_some_iff.mp retained
      exact ⟨kept, held, of_decide_eq_true apart, by rw [if_pos moved]; exact placed⟩
  · next same =>
      obtain ⟨held, apart⟩ := Option.filter_eq_some_iff.mp found
      exact ⟨entry, held, of_decide_eq_true apart, by rw [if_neg same]⟩

variable (digests program) in
theorem refreshAll_fields (reuse : Reuse D N K U) :
    ∃ entries, refreshAll digests program reuse = { reuse with
      entries
      rebuilt := false
      options := some (digests.options program.options)
      ambient := some (ambientDigest digests program)
      ambientPaths := ((program.files.filter ProgramFile.ambient).map ProgramFile.path).toFinset
      snapshot := snapshotOf digests program (graphNow digests program reuse)
      ambientReads := (graphNow digests program reuse).close
        ((program.files.filter ProgramFile.ambient).filterMap fun file =>
          (graphNow digests program reuse).id file.path) ∅
      graph := some (graphNow digests program reuse) } := by
  unfold refreshAll moveEntries
  dsimp only
  split <;> split <;> split <;> first | exact ⟨_, rfl⟩ | (split <;> exact ⟨_, rfl⟩)

private def Noted (places : Path → Option ℕ) (start truth : Path → Option (PathInputs D))
    (held : Finset ℕ × (Path → Option (PathInputs D))) : Prop :=
  ∀ path, held.2 path = start path ∨ held.2 path = truth path ∧
    ∀ place, places path = some place → start path ≠ truth path → place ∈ held.1

variable {places : Path → Option ℕ} {start truth : Path → Option (PathInputs D)}
  {held : Finset ℕ × (Path → Option (PathInputs D))}

private theorem compareInputs_noted
    (noted : Noted places start truth held) {now : ℕ × Path × PathInputs D}
    (inputs : truth now.2.1 = some now.2.2) (placed : places now.2.1 = some now.1) :
    Noted places start truth (compareInputs held now) ∧
      ∀ path, held.2 path = truth path ∨ path = now.2.1 →
        (compareInputs held now).2 path = truth path := by
  unfold compareInputs
  split
  · next differs =>
      refine ⟨fun path => ?_, fun path reached => ?_⟩
      · by_cases here : path = now.2.1
        · subst here
          refine .inr ⟨(Function.update_self _ _ _).trans inputs.symm, fun place found _ => ?_⟩
          rw [Option.some.inj (found.symm.trans placed)]
          exact Finset.mem_insert_self _ _
        · have kept := Function.update_of_ne here (some now.2.2) held.2
          exact (noted path).imp kept.trans fun ⟨reached, noted⟩ => ⟨kept.trans reached,
            fun place found moved => Finset.mem_insert_of_mem (noted place found moved)⟩
      · by_cases here : path = now.2.1
        · subst here
          exact (Function.update_self _ _ _).trans inputs.symm
        · exact (Function.update_of_ne here _ _).trans (reached.resolve_right here)
  · next same =>
      refine ⟨noted, fun path reached => reached.elim id fun here => ?_⟩
      rw [here, inputs]
      exact not_not.mp same

private theorem compareInputs_fold (now : List (ℕ × Path × PathInputs D))
    (right : ∀ one ∈ now, truth one.2.1 = some one.2.2 ∧ places one.2.1 = some one.1)
    (noted : Noted places start truth held) :
    Noted places start truth (now.foldl compareInputs held) ∧
      ∀ path, held.2 path = truth path ∨ path ∈ now.map (fun one => one.2.1) →
        (now.foldl compareInputs held).2 path = truth path := by
  induction now generalizing held with
  | nil => exact ⟨noted, fun path reached => reached.resolve_right (by simp)⟩
  | cons one now ih =>
    obtain ⟨inputs, placed⟩ := right one mem_cons_self
    obtain ⟨noted, turned⟩ := compareInputs_noted noted inputs placed
    obtain ⟨noted, rights⟩ := ih (fun other member => right other (mem_cons_of_mem _ member)) noted
    refine ⟨noted, fun path reached => rights path ?_⟩
    rcases reached with reached | member
    · exact .inl (turned path (.inl reached))
    · rcases mem_cons.mp member with here | member
      · exact .inl (turned path (.inr here))
      · exact .inr member

variable [DecidableEq N]

private theorem unchanged_reads (settled : reuse.Settled digests syntaxes pass base)
    (holds : entry.Holds pass base path)
    (same_snapshot : snapshot = snapshotOf digests program (ofProgram digests program))
    {changed : Finset ℕ}
    (noted : ∀ (place : ℕ) (target : Path), (membersOf base)[place]? = some target →
      snapshot target ≠ reuse.snapshot target → place ∈ changed)
    (apart : Disjoint entry.reads changed) (target : Path) (reads : base.Reads path.clean target) :
    target ∈ program.members ∧ program.content target = base.content target := by
  have member := base.reads_member holds.member reads
  obtain ⟨place, placed⟩ := place_of_member member
  have unmoved : snapshot target = reuse.snapshot target := by
    by_contra moved
    exact Finset.disjoint_left.mp apart ((holds.reads place).mpr ⟨target, placed, reads⟩)
      (noted place target placed moved)
  rw [same_snapshot, settled.snapshot] at unmoved
  exact content_of_snapshot digests base member unmoved

private theorem moveEntries_holds (settled : reuse.Settled digests syntaxes pass base)
    (options : program.options = base.options) (ambient : program.ambient = base.ambient)
    (indexes : Indexes program program.AmbientReads ambientReads)
    (found : (reuse.moveEntries (ofProgram digests base) (ofProgram digests program)
      (snapshotOf digests program (ofProgram digests program)) ambientReads).entries path =
        some entry) : entry.Holds pass program path := by
  obtain ⟨kept, held, apart, moved⟩ := moveEntries_entry found
  have holds := settled.entries path kept held
  have same := unchanged_reads settled holds rfl (fun place target placed differs => by
    refine Finset.mem_filter.mpr ⟨Finset.mem_range.mpr (List.getElem?_eq_some_iff.mp placed).1, ?_⟩
    rw [ofProgram_paths, placed]
    exact decide_eq_true differs) apart
  split at moved
  · obtain ⟨place, placed, rfl⟩ := moveEntry_reads moved
    -- a member's path is clean, so the closure is that of the entry's own file
    have member := (ofProgram_id digests program).mp placed
    obtain ⟨file, -, named⟩ :=
      program.mem_members.mp (mem_membersOf.mp (mem_of_getElem? member))
    have clean : path.clean = path := by
      rw [← named]
      exact Path.clean_clean file.name
    have reads := reads_indexes digests program indexes placed
    exact holds.carry options ambient same (clean.symm ▸ reads)
  · next unmoved =>
      obtain ⟨members, -⟩ := paths_edges_of_digest digests program (not_not.mp unmoved)
      have agree := SourceProgram.reads_iff ambient fun target reads =>
        congrArg (fun content => content.2.2.2) (same target reads).2
      subst moved
      have reads : Indexes program (program.Reads path.clean) entry.reads := fun place => by
        rw [holds.reads place, members]
        simp only [agree]
      exact holds.carry options ambient same reads

private theorem refreshAll_entries
    (held : reuse.graph = none ∨ reuse.Settled digests syntaxes pass base)
    (graph : graphNow digests program reuse = ofProgram digests program)
    (found : (refreshAll digests program reuse).entries path = some entry) :
    entry.Holds pass program path := by
  unfold refreshAll at found
  rw [graph] at found
  dsimp only at found
  split at found
  case isFalse => exact absurd found (by simp [clear])
  case isTrue =>
    rcases held with absent | settled
    · rw [absent] at found
      exact absurd found (by simp [clear])
    · rw [settled.graph] at found
      dsimp only at found
      split at found
      case isTrue =>
        obtain ⟨kept, cleared, -⟩ := moveEntries_entry found
        exact absurd cleared (by simp [clear])
      case isFalse unmoved =>
        rw [settled.options, settled.ambient] at unmoved
        push Not at unmoved
        have options := digests.options_injective (Option.some.inj unmoved.1)
        have ambient := ambient_of_digest (Option.some.inj unmoved.2)
        exact moveEntries_holds settled options.symm ambient
          (ambientReads_indexes digests program) found

theorem refreshAll_settled
    (held : reuse.graph = none ∨ reuse.Settled digests syntaxes pass base)
    (since : reuse.rebuilt = false → base.Since replaced program)
    (uncounted : reuse.censusWrites = none) :
    (refreshAll digests program reuse).Settled digests syntaxes pass program := by
  have graph : graphNow digests program reuse = ofProgram digests program :=
    graphNow_eq (fun old found => by
      rcases held with absent | settled
      · rw [absent] at found
        exact absurd found (by simp)
      · exact Option.some.inj (found.symm.trans settled.graph)) since
  have indexes := ambientReads_indexes digests program
  have entries : ∀ path entry, (refreshAll digests program reuse).entries path = some entry →
      entry.Holds pass program path := fun _ _ => refreshAll_entries held graph
  obtain ⟨kept, fields⟩ := refreshAll_fields digests program reuse
  rw [fields, graph] at entries ⊢
  refine ⟨rfl, rfl, rfl, indexes, fun path => ?_, rfl, entries, fun writes counted => ?_⟩
  · rw [mem_toFinset, SourceProgram.ambient, map_map]
    rfl
  · rw [uncounted] at counted
    exact absurd counted (by simp)

variable {exportChanges : Finset Path} {refreshed : Reuse D N K U}

theorem refreshInPlace_cases
    (done : refreshInPlace digests syntaxes program replaced exportChanges reuse = some refreshed) :
    reuse.rebuilt = false ∧ ∃ graph files now, reuse.graph = some graph ∧
      reuse.options = some (digests.options program.options) ∧
      (replaced.sort (· ≤ ·)).mapM (replacedFile program reuse graph) = some files ∧
      (replaced.sort (· ≤ ·) ++ exportChanges.sort (· ≤ ·)).mapM
        (inputsNow digests program reuse graph replaced files) = some now ∧
      ∃ censusFiles censusWrites,
        refreshed = { reuse.retainUnchanged (now.foldl compareInputs (∅, reuse.snapshot)).1 with
          snapshot := (now.foldl compareInputs (∅, reuse.snapshot)).2
          censusFiles
          censusWrites } ∧
        match reuse.censusWrites with
        | none => censusFiles = reuse.censusFiles ∧ censusWrites = none
        | some writes => (censusFiles, censusWrites) =
            Prod.map id some (files.foldl (patchCensus digests syntaxes) (reuse.censusFiles, writes)) := by
  unfold refreshInPlace at done
  split at done
  · exact absurd done (by simp)
  · next enabled =>
      push Not at enabled
      obtain ⟨graph, found, done⟩ := Option.bind_eq_some_iff.mp done
      split at done
      · exact absurd done (by simp)
      · next options =>
          obtain ⟨files, read, done⟩ := Option.bind_eq_some_iff.mp done
          obtain ⟨now, noted, done⟩ := Option.bind_eq_some_iff.mp done
          refine ⟨by simpa using enabled.1, graph, files, now, found, not_not.mp options, read, noted, ?_⟩
          cases counted : reuse.censusWrites with
          | none =>
            rw [counted] at done
            exact ⟨_, _, (Option.some.inj done).symm, rfl, rfl⟩
          | some writes =>
            rw [counted] at done
            exact ⟨_, _, (Option.some.inj done).symm, rfl⟩

private theorem replaced_census (memo : HalvesHold digests syntaxes reuse.censusFiles)
    (since : base.Since replaced program) {files : List (ProgramFile T)}
    (read : (replaced.sort (· ≤ ·)).mapM
      (replacedFile program reuse (ofProgram digests base)) = some files)
    (counted : ∀ writes, reuse.censusWrites = some writes →
      Counted digests syntaxes base.files (reuse.censusFiles, writes))
    {censusFiles : Path → Option (D × Finset N)} {censusWrites : Option (CensusWrites N)}
    (census : match reuse.censusWrites with
      | none => censusFiles = reuse.censusFiles ∧ censusWrites = none
      | some writes => (censusFiles, censusWrites) = Prod.map id some
          (files.foldl (patchCensus digests syntaxes) (reuse.censusFiles, writes))) :
    (∀ writes, censusWrites = some writes →
      Counted digests syntaxes program.files (censusFiles, writes)) ∧
      HalvesHold digests syntaxes censusFiles := by
  cases written : reuse.censusWrites with
  | none =>
    rw [written] at census
    obtain ⟨rfl, rfl⟩ := census
    exact ⟨fun _ none_written => absurd none_written (by simp), memo⟩
  | some writes =>
    rw [written] at census
    cases census
    have moved := patchFiles_counted (counted writes written) memo files
      (fun file member => ((mem_replacedFiles read).mp member).1) program.distinct
      (forall₂_iff_zip.mpr ⟨since.files.length_eq, fun {old new} member => by
        obtain ⟨named, same⟩ := forall₂_zip since.files member
        exact ⟨named, same.imp_right fun listed =>
          (mem_replacedFiles read).mpr ⟨(of_mem_zip member).2, listed⟩⟩⟩)
    refine ⟨fun other same => ?_, moved.2⟩
    rw [← Option.some.inj same]
    exact moved.1

theorem refreshInPlace_settled (settled : reuse.Settled digests syntaxes pass base)
    (memo : HalvesHold digests syntaxes reuse.censusFiles) (since : base.Since replaced program)
    (announced : ∀ path, program.exports path ≠ base.exports path → path ∈ exportChanges)
    (done : refreshInPlace digests syntaxes program replaced exportChanges reuse = some refreshed) :
    refreshed.Settled digests syntaxes pass program ∧
      HalvesHold digests syntaxes refreshed.censusFiles ∧
      refreshed.rebuilt = false ∧ refreshed.census = reuse.census ∧
      refreshed.replaced = reuse.replaced := by
  obtain ⟨unbuilt, graph, files, now, found, options, read, noted, censusFiles, censusWrites, rfl,
    census⟩ := refreshInPlace_cases done
  cases found.symm.trans settled.graph
  have ambient := replaced_ambient read settled since
  obtain ⟨forward, backward⟩ := mapM_some noted
  have rights : ∀ one ∈ now,
      snapshotOf digests program (ofProgram digests program) one.2.1 = some one.2.2 ∧
        (ofProgram digests base).id one.2.1 = some one.1 := fun one member => by
    obtain ⟨path, -, made⟩ := backward one member
    obtain ⟨rfl, placed, inputs⟩ := inputsNow_right read settled since made
    exact ⟨inputs, placed⟩
  have begun : Noted (ofProgram digests base).id reuse.snapshot
      (snapshotOf digests program (ofProgram digests program)) (∅, reuse.snapshot) :=
    fun path => .inl rfl
  obtain ⟨changed, reached⟩ := compareInputs_fold now rights begun
  generalize now.foldl compareInputs (∅, reuse.snapshot) = compared at changed reached ⊢
  have snapshot : compared.2 = snapshotOf digests program (ofProgram digests program) := by
    funext path
    refine reached path ?_
    by_cases listed : path ∈ replaced.sort (· ≤ ·) ++ exportChanges.sort (· ≤ ·)
    · obtain ⟨one, member, made⟩ := forward path listed
      exact .inr (mem_map.mpr ⟨one, member, (inputsNow_right read settled since made).1⟩)
    · simp only [mem_append, Finset.mem_sort, not_or] at listed
      have exports := not_not.mp fun moved => listed.2 (announced path moved)
      exact .inl (by rw [settled.snapshot, snapshot_kept since listed.1 exports])
  have indexed : ∀ place target, (membersOf base)[place]? = some target →
      compared.2 target ≠ reuse.snapshot target → place ∈ compared.1 := by
    intro place target placed moved
    obtain ⟨-, indexed⟩ := (changed target).resolve_left moved
    refine indexed place ((ofProgram_id digests base).mpr placed) fun same => moved ?_
    rw [snapshot, same]
  have counts := replaced_census memo since read settled.counted census
  refine ⟨⟨?_, options, ?_, ?_, ?_, snapshot, ?_, counts.1⟩, counts.2, unbuilt, rfl, rfl⟩
  · rw [since.ofProgram digests]
    exact settled.graph
  · rw [ambientDigest, ambient]
    exact settled.ambient
  · rw [since.ambientReads ambient]
    exact since.indexes settled.ambientReads
  · rw [ambient]
    exact settled.ambientPaths
  · intro path entry retained
    obtain ⟨held, apart⟩ := Option.filter_eq_some_iff.mp retained
    have holds := settled.entries path entry held
    have same := unchanged_reads settled holds snapshot indexed (of_decide_eq_true apart)
    have reads := since.indexes holds.reads
    rw [← since.reads ambient] at reads
    exact holds.carry (digests.options_injective (Option.some.inj (options.symm.trans
      settled.options))) ambient same reads

end Reuse

end SolidChecker.Producer
