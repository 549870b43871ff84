/- source: apps/solid-typefacts/src/passes.rs -/

import SolidChecker.Producer.Reuse

namespace SolidChecker.Producer

open List

variable {T E O D N K U : Type}

def FileSyntax.half (syntaxes : FileSyntax T N) (file : ProgramFile T) : Finset N :=
  if syntaxes.isDeclarationFile file.name then ∅ else syntaxes.propertyWrites file.path file.text

variable [DecidableEq N] in
def FileSyntax.census (syntaxes : FileSyntax T N) (files : List (ProgramFile T)) : Finset N :=
  files.foldr (fun file names => syntaxes.half file ∪ names) ∅

variable {files : List (ProgramFile T)}

def substitute (file : ProgramFile T) (files : List (ProgramFile T)) : List (ProgramFile T) :=
  files.map fun other => if other.path = file.path then file else other

private theorem mem_substitute {file other : ProgramFile T} (member : other ∈ substitute file files) :
    other = file ∨ other ∈ files ∧ other.path ≠ file.path := by
  obtain ⟨held, inside, rfl⟩ := mem_map.mp member
  split
  · exact .inl rfl
  · next elsewhere => exact .inr ⟨inside, elsewhere⟩

variable {file : ProgramFile T}

private theorem substitute_absent
    (absent : file.path ∉ files.map ProgramFile.path) : substitute file files = files := by
  refine (map_congr_left fun other member => ?_).trans (map_id files)
  exact if_neg fun same =>
    absent (mem_map.mpr ⟨other, member, same⟩)

variable {file old : ProgramFile T}

private theorem countP_substitute (test : ProgramFile T → Bool)
    (distinct : (files.map ProgramFile.path).Nodup) (member : old ∈ files)
    (same : old.path = file.path) :
    (substitute file files).countP test + (if test old then 1 else 0) =
      files.countP test + (if test file then 1 else 0) := by
  induction files with
  | nil => cases member
  | cons first later ih =>
    rw [map_cons, nodup_cons] at distinct
    obtain ⟨absent, distinct⟩ := distinct
    rcases mem_cons.mp member with rfl | member
    · have rest : substitute file later = later := substitute_absent (same ▸ absent)
      rw [substitute, map_cons, if_pos same, ← substitute, rest, countP_cons, countP_cons]
      omega
    · have elsewhere : first.path ≠ file.path := fun equal =>
        absent (mem_map.mpr ⟨old, member, same.trans equal.symm⟩)
      rw [substitute, map_cons, if_neg elsewhere, ← substitute, countP_cons, countP_cons]
      have rest := ih distinct member
      omega

private theorem substitute_pairs {files goal : List (ProgramFile T)}
    {news : List (ProgramFile T)} (distinct : (goal.map ProgramFile.path).Nodup) (inside : file ∈ goal)
    (pairs : List.Forall₂ (fun old new : ProgramFile T =>
      old.name = new.name ∧ (old = new ∨ new ∈ file :: news)) files goal) :
    List.Forall₂ (fun old new : ProgramFile T => old.name = new.name ∧ (old = new ∨ new ∈ news))
      (substitute file files) goal := by
  refine forall₂_map_left_iff.mpr (forall₂_iff_zip.mpr ⟨pairs.length_eq, ?_⟩)
  intro old new member
  obtain ⟨named, same⟩ := forall₂_zip pairs member
  have new_inside := (of_mem_zip member).2
  have path : old.path = new.path := congrArg Path.clean named
  split
  · next here =>
      have equal : new = file :=
        inj_on_of_nodup_map distinct new_inside inside (path.symm.trans here)
      exact ⟨congrArg ProgramFile.name equal.symm, .inl equal.symm⟩
  · next elsewhere =>
      refine ⟨named, same.imp_right fun listed => (mem_cons.mp listed).resolve_left ?_⟩
      rintro rfl
      exact elsewhere path

section

variable (digests : Digests T E O D) (syntaxes : FileSyntax T N)

def HalvesHold (censusFiles : Path → Option (D × Finset N)) : Prop :=
  ∀ path digest half, censusFiles path = some (digest, half) →
    ∃ text, digests.text text = digest ∧ syntaxes.propertyWrites path text = half

section

variable {digests syntaxes} {censusFiles : Path → Option (D × Finset N)}
  (memo : HalvesHold digests syntaxes censusFiles) (file : ProgramFile T)
include memo

private theorem HalvesHold.update :
    HalvesHold digests syntaxes (Function.update censusFiles file.path
      (some (digests.text file.text, syntaxes.propertyWrites file.path file.text))) := by
  intro path digest half found
  by_cases here : path = file.path
  · subst here
    rw [Function.update_self, Option.some.injEq, Prod.mk.injEq] at found
    exact ⟨file.text, found.1, found.2⟩
  · rw [Function.update_of_ne here] at found
    exact memo path digest half found

private theorem censusHalf_eq [DecidableEq D] : Reuse.censusHalf digests syntaxes censusFiles file =
      syntaxes.propertyWrites file.path file.text := by
  unfold Reuse.censusHalf
  split
  · next digest half found =>
      split
      · next same =>
          obtain ⟨text, digested, writes⟩ := memo file.path digest half found
          have equal : text = file.text := digests.text_injective (digested.trans same)
          rw [← writes, equal]
      · rfl
  · rfl

end

variable [DecidableEq N]

private theorem FileSyntax.mem_census {syntaxes : FileSyntax T N} {name : N} :
    name ∈ syntaxes.census files ↔ ∃ file ∈ files, name ∈ syntaxes.half file := by
  induction files with
  | nil => simp [census]
  | cons file later ih =>
    rw [census, foldr_cons, Finset.mem_union, ← census, ih]
    simp

structure Counted (files : List (ProgramFile T)) (held : (Path → Option (D × Finset N)) × CensusWrites N) :
    Prop where
  halves : ∀ file ∈ files, syntaxes.isDeclarationFile file.name = false →
    held.1 file.path = some (digests.text file.text, syntaxes.propertyWrites file.path file.text)
  counts : ∀ name, held.2.counts name = files.countP fun file => decide (name ∈ syntaxes.half file)
  writes : ∀ name, name ∈ held.2.writes ↔ 0 < held.2.counts name

variable {digests syntaxes}

private theorem replace_counts (census : CensusWrites N) (old new : Finset N) (name : N) :
    (Reuse.CensusWrites.replace census old new).counts name =
      census.counts name - (if name ∈ old then 1 else 0) + (if name ∈ new then 1 else 0) := by
  simp only [Reuse.CensusWrites.replace]
  split <;> split <;> omega

private theorem replace_writes {census : CensusWrites N} {old new : Finset N} {name : N}
    (writes : name ∈ census.writes ↔ 0 < census.counts name) :
    name ∈ (Reuse.CensusWrites.replace census old new).writes ↔
      0 < (Reuse.CensusWrites.replace census old new).counts name := by
  rw [replace_counts]
  simp only [Reuse.CensusWrites.replace, Finset.mem_union, Finset.mem_filter, writes]
  by_cases leaves : name ∈ old <;> by_cases joins : name ∈ new <;>
    simp only [leaves, joins, if_true, if_false, true_and, false_and, not_false_eq_true, and_true,
      or_false] <;> omega

section

variable {held : (Path → Option (D × Finset N)) × CensusWrites N}
  (counted : Counted digests syntaxes files held)
include counted

private theorem Counted.writes_eq : held.2.writes = syntaxes.census files := by
  ext name
  rw [counted.writes, counted.counts, countP_pos_iff, FileSyntax.mem_census]
  simp

variable [DecidableEq D] (memo : HalvesHold digests syntaxes held.1)
include memo

private theorem countFile_counted (absent : file.path ∉ files.map ProgramFile.path) :
    Counted digests syntaxes (files ++ [file]) (Reuse.countFile digests syntaxes held file) ∧
      HalvesHold digests syntaxes (Reuse.countFile digests syntaxes held file).1 := by
  unfold Reuse.countFile
  cases declared : syntaxes.isDeclarationFile file.name with
  | true =>
    have nothing : syntaxes.half file = ∅ := by rw [FileSyntax.half, if_pos declared]
    refine ⟨⟨fun other member typed => ?_, fun name => ?_, counted.writes⟩, memo⟩
    · rcases mem_append.mp member with before | last
      · exact counted.halves other before typed
      · rw [mem_singleton.mp last, declared] at typed
        exact absurd typed (by decide)
    · simp [counted.counts name, nothing]
  | false =>
    have half : syntaxes.half file = syntaxes.propertyWrites file.path file.text := by
      rw [FileSyntax.half, declared]
      rfl
    simp only [Bool.false_eq_true, if_false, censusHalf_eq memo]
    refine ⟨⟨fun other member typed => ?_, fun name => ?_, fun name => ?_⟩, memo.update file⟩
    · rcases mem_append.mp member with before | last
      · have elsewhere : other.path ≠ file.path := fun same =>
          absent (mem_map.mpr ⟨other, before, same⟩)
        exact (Function.update_of_ne elsewhere _ _).trans (counted.halves other before typed)
      · rw [mem_singleton.mp last]
        exact Function.update_self _ _ _
    · simp only [countP_append, countP_singleton, counted.counts name, half, decide_eq_true_eq]
      split <;> omega
    · simp only [Finset.mem_union, counted.writes name]
      split
      · next written => simp [written]
      · next unwritten => simp [unwritten]

private theorem countFiles_counted (later : List (ProgramFile T))
    (distinct : ((files ++ later).map ProgramFile.path).Nodup) :
    Counted digests syntaxes (files ++ later)
        (later.foldl (Reuse.countFile digests syntaxes) held) ∧
      HalvesHold digests syntaxes (later.foldl (Reuse.countFile digests syntaxes) held).1 := by
  induction later generalizing files held with
  | nil =>
    rw [append_nil]
    exact ⟨counted, memo⟩
  | cons file later ih =>
    have absent : file.path ∉ files.map ProgramFile.path := by
      rw [map_append, map_cons] at distinct
      exact fun member => (nodup_append.mp distinct).2.2 _ member _ mem_cons_self rfl
    obtain ⟨counted, memo⟩ := countFile_counted counted memo absent
    rw [append_cons] at distinct ⊢
    exact ih counted memo distinct

private theorem patchCensus_counted (distinct : (files.map ProgramFile.path).Nodup) (member : old ∈ files)
    (same : old.name = file.name) : Counted digests syntaxes (substitute file files)
        (Reuse.patchCensus digests syntaxes held file) ∧
      HalvesHold digests syntaxes (Reuse.patchCensus digests syntaxes held file).1 := by
  have path : old.path = file.path := congrArg Path.clean same
  have moved := fun name => countP_substitute (fun file => name ∈ syntaxes.half file)
    distinct member path
  simp only [decide_eq_true_eq] at moved
  unfold Reuse.patchCensus
  cases declared : syntaxes.isDeclarationFile file.name with
  | true =>
    have nothing : ∀ other, other.name = file.name → syntaxes.half other = ∅ :=
      fun other named => by rw [FileSyntax.half, named, if_pos declared]
    simp only [if_true]
    refine ⟨⟨fun other inside typed => ?_, fun name => ?_, counted.writes⟩, memo⟩
    · rcases mem_substitute inside with rfl | ⟨inside, -⟩
      · exact absurd (declared.symm.trans typed) (by decide)
      · exact counted.halves other inside typed
    · have equal := moved name
      rw [nothing old same, nothing file rfl] at equal
      rw [counted.counts name]
      omega
  | false =>
    have held_half := counted.halves old member (same ▸ declared)
    have halves : ∀ other, other.name = file.name →
        syntaxes.half other = syntaxes.propertyWrites other.path other.text :=
      fun other named => by rw [FileSyntax.half, named, declared]; rfl
    rw [path] at held_half
    simp only [Bool.false_eq_true, if_false, held_half, Option.map_some, Option.some.injEq,
      Option.getD_some]
    split
    · next digested =>
        have text : old.text = file.text := digests.text_injective digested
        refine ⟨⟨fun other inside typed => ?_, fun name => ?_, counted.writes⟩, memo⟩
        · rcases mem_substitute inside with rfl | ⟨inside, -⟩
          · rw [held_half, text]
          · exact counted.halves other inside typed
        · have equal := moved name
          rw [halves old same, halves file rfl, path, text] at equal
          rw [counted.counts name]
          omega
    · refine ⟨⟨fun other inside typed => ?_, fun name => ?_, fun name => ?_⟩, memo.update file⟩
      · rcases mem_substitute inside with rfl | ⟨inside, elsewhere⟩
        · exact Function.update_self _ _ _
        · exact (Function.update_of_ne elsewhere _ _).trans (counted.halves other inside typed)
      · have equal := moved name
        have positive : name ∈ syntaxes.half old → 0 < files.countP fun file =>
            name ∈ syntaxes.half file := fun written =>
          countP_pos_iff.mpr ⟨old, member, decide_eq_true written⟩
        rw [halves old same, path] at positive equal
        rw [halves file rfl] at equal
        rw [replace_counts, counted.counts name]
        split at equal
        · next written =>
            have some_file := positive written
            simp only [written, if_true]
            omega
        · next unwritten =>
            simp only [unwritten, if_false]
            omega
      · exact replace_writes (counted.writes name)

theorem patchFiles_counted {goal : List (ProgramFile T)} (news : List (ProgramFile T))
    (inside : ∀ file ∈ news, file ∈ goal) (distinct : (goal.map ProgramFile.path).Nodup)
    (pairs : List.Forall₂ (fun old new : ProgramFile T =>
      old.name = new.name ∧ (old = new ∨ new ∈ news)) files goal) :
    Counted digests syntaxes goal (news.foldl (Reuse.patchCensus digests syntaxes) held) ∧
      HalvesHold digests syntaxes (news.foldl (Reuse.patchCensus digests syntaxes) held).1 := by
  induction news generalizing files held with
  | nil =>
    have same : files = goal := by
      rw [← forall₂_eq_eq_eq]
      exact pairs.imp fun old new pair => pair.2.resolve_right not_mem_nil
    exact ⟨same ▸ counted, memo⟩
  | cons file news ih =>
    have paths : files.map ProgramFile.path = goal.map ProgramFile.path := by
      rw [← forall₂_eq_eq_eq]
      exact forall₂_map_left_iff.mpr (forall₂_map_right_iff.mpr
        (pairs.imp fun old new pair => congrArg Path.clean pair.1))
    have file_inside := inside file mem_cons_self
    obtain ⟨old, member, named⟩ : ∃ old ∈ files, old.name = file.name := by
      obtain ⟨place, bound, rfl⟩ := mem_iff_getElem.mp file_inside
      have old_bound : place < files.length := pairs.length_eq.symm ▸ bound
      exact ⟨files[place], getElem_mem old_bound, (pairs.get old_bound bound).1⟩
    obtain ⟨counted, memo⟩ := patchCensus_counted counted memo (paths ▸ distinct) member named
    exact ih counted memo (fun other listed => inside other (mem_cons_of_mem _ listed))
      (substitute_pairs distinct file_inside pairs)

end

theorem propertyCensus_counted [DecidableEq D] {program : SourceProgram T E O} {reuse : Reuse D N K U}
    (memo : HalvesHold digests syntaxes reuse.censusFiles)
    (answered : ∀ census, reuse.census = some census → census = syntaxes.census program.files)
    (counted : ∀ writes, reuse.censusWrites = some writes →
      Counted digests syntaxes program.files (reuse.censusFiles, writes)) :
    ∃ censusFiles census censusWrites, Reuse.propertyCensus digests syntaxes program reuse =
        (syntaxes.census program.files, { reuse with censusFiles, census, censusWrites }) ∧
      HalvesHold digests syntaxes censusFiles ∧
      (∀ names, census = some names → names = syntaxes.census program.files) ∧
      ∀ writes, censusWrites = some writes →
        Counted digests syntaxes program.files (censusFiles, writes) := by
  unfold Reuse.propertyCensus
  cases held : reuse.census with
  | some census =>
    exact ⟨reuse.censusFiles, reuse.census, reuse.censusWrites, by rw [answered census held],
      memo, answered, counted⟩
  | none =>
    cases written : reuse.censusWrites with
    | some writes =>
      have union := (counted writes written).writes_eq
      refine ⟨reuse.censusFiles, some writes.writes, some writes, ?_, memo, ?_,
        fun other same => counted other (written.trans same)⟩
      · rw [← union]
      · rintro names same
        rw [← Option.some.inj same, union]
    | none =>
      have empty : Counted digests syntaxes [] (reuse.censusFiles, ⟨fun _ => 0, ∅⟩) :=
        ⟨fun _ member => absurd member not_mem_nil, fun _ => rfl, fun _ => by simp⟩
      obtain ⟨all, kept⟩ := countFiles_counted empty memo program.files program.distinct
      rw [nil_append] at all
      have union := all.writes_eq
      refine ⟨_, some _, some _, Prod.ext union rfl, ?_, ?_, ?_⟩
      · intro path digest half found
        simp only at found
        split at found
        · exact kept path digest half found
        · exact absurd found (by simp)
      · rintro names same
        rw [← Option.some.inj same, union]
      · rintro writes same
        rw [← Option.some.inj same]
        refine ⟨fun file member typed => ?_, all.counts, all.writes⟩
        have present : file.path ∈ ((program.files.filter fun file =>
            !syntaxes.isDeclarationFile file.name).map ProgramFile.path).toFinset := by
          rw [mem_toFinset]
          exact mem_map_of_mem (mem_filter.mpr ⟨member, by rw [typed]; rfl⟩)
        simp only [if_pos present]
        exact all.halves file member typed

end

end SolidChecker.Producer
