/- source: apps/solid-typefacts/src/project.rs, overlay.rs, unsafe_boundary.rs -/

import SolidChecker.Building.Project

namespace SolidChecker.Building

open Foundation Finset
open Producer (Path FileChange)

section

variable {base : Base}

def Lookups.questions (lookups : Lookups) : Finset Question :=
  lookups.answers.keys ∪ lookups.readPaths.image Question.reads

def Lookups.Honest (base : Base) (lookups : Lookups) : Prop :=
  ∀ question answer, lookups.answers.lookup question = some answer → answer = base question

private theorem Lookups.honest_empty : Lookups.empty.Honest base := nofun

variable {lookups : Lookups}

private theorem Lookups.consult_spec (honest : lookups.Honest base)
    (question : Question) : (lookups.consult base question).1 = base question ∧
      (lookups.consult base question).2.Honest base ∧
      (lookups.consult base question).2.questions = insert question lookups.questions := by
  unfold consult
  split
  · rename_i read
    refine ⟨rfl, honest, ?_⟩
    have named : .reads question.path = question := by
      cases question <;> first | rfl | exact nomatch read
    unfold questions
    rw [image_insert, named, union_insert]
  · unfold remember
    split
    · rename_i answer found
      refine ⟨honest question answer found, honest, (insert_eq_of_mem ?_).symm⟩
      refine mem_union_left _ (Finmap.mem_keys.mpr ?_)
      exact Finmap.mem_of_lookup_eq_some found
    · refine ⟨rfl, fun other answer found => ?_, ?_⟩
      · by_cases same : other = question
        · subst same
          exact (Option.some.inj ((Finmap.lookup_insert _).symm.trans found)).symm
        · exact honest other answer ((Finmap.lookup_insert_of_ne _ same).symm.trans found)
      · unfold questions
        rw [← insert_union]
        congr 1
        ext other
        rw [Finmap.mem_keys, mem_insert, Finmap.mem_keys, Finmap.mem_insert]

variable {R : Type}

private theorem OverlayFs.performFrom_spec (asks : Asks R) (state : State) (honest : lookups.Honest base) :
    ∃ after, performFrom base asks ⟨state, some lookups⟩ = (asks.run base, ⟨state, some after⟩) ∧
      after.Honest base ∧ after.questions = lookups.questions ∪ (asks.asked base).toFinset := by
  induction asks generalizing lookups with
  | done result => exact ⟨lookups, rfl, honest, (union_empty _).symm⟩
  | ask question next ih =>
    obtain ⟨told, kept, added⟩ := Lookups.consult_spec honest question
    have step : consult base question ⟨state, some lookups⟩ =
        (base question, ⟨state, some (lookups.consult base question).2⟩) := by
      rw [← told]
      rfl
    obtain ⟨after, performed, honest', questions⟩ := ih (base question) kept
    refine ⟨after, ?_, honest', ?_⟩
    · unfold performFrom
      rw [step]
      exact performed
    · rw [questions, added, Dialogue.asked, List.toFinset_cons, insert_union, union_insert]

def recorded (base : Base) (state : State) (asks : Asks R) : BuildQueries :=
  ((state.overlaid asks).asked base).toFinset.filter fun question => bundled question.path = false

theorem run_overlaid_bind {S : Type} (state : State) (asks : Asks R) (later : R → Asks S) :
    (state.overlaid (asks >>= later)).run base =
      (state.overlaid (later ((state.overlaid asks).run base))).run base := by
  unfold State.overlaid
  rw [Dialogue.through_bind, Dialogue.run_bind]

private theorem recorded_bind {S : Type} (state : State) (asks : Asks R) (later : R → Asks S) :
    recorded base state (asks >>= later) =
      recorded base state asks ∪ recorded base state (later ((state.overlaid asks).run base)) := by
  unfold recorded State.overlaid
  rw [Dialogue.through_bind, Dialogue.asked_bind, List.toFinset_append, filter_union]

private theorem run_eq_of_recorded {other : Base} (state : State) (asks : Asks R)
    (alike : ∀ question, bundled question.path → other question = base question)
    (agree : ∀ question ∈ recorded base state asks, other question = base question) :
    (state.overlaid asks).run other = (state.overlaid asks).run base := by
  refine (Dialogue.eq_of_agree (state.overlaid asks) fun question member => ?_).1
  cases library : bundled question.path with
  | true => exact alike question library
  | false => exact agree question (mem_filter.mpr ⟨List.mem_toFinset.mpr member, library⟩)

variable (base) in
theorem OverlayFs.scoped_spec (asks : Asks R) (state : State) :
    ∃ after, perform base asks ⟨state, some Lookups.empty⟩ =
        ((state.overlaid asks).run base, ⟨state, some after⟩) ∧
      after.queries = recorded base state asks := by
  obtain ⟨after, performed, -, questions⟩ :=
    performFrom_spec (state.overlaid asks) state Lookups.honest_empty
  refine ⟨after, performed, ?_⟩
  have all : after.questions = ((state.overlaid asks).asked base).toFinset := by
    rw [questions]
    exact empty_union _
  unfold Lookups.queries recorded
  rw [← all]
  rfl

end

section

variable {C H D : Type} (compiler : Compiler C H D) (base : Base)

private theorem buildProgram_spec (state : State) :
    ∃ after, compiler.buildProgram base false ⟨state, some Lookups.empty⟩ =
        ((state.overlaid compiler.buildFromScratch).run base, ⟨state, some after⟩) ∧
      after.queries = recorded base state compiler.buildFromScratch := by
  obtain ⟨after, performed, queries⟩ := OverlayFs.scoped_spec base compiler.buildFromScratch state
  refine ⟨after, ?_, queries⟩
  unfold Compiler.buildProgram OverlayFs.buildScope
  dsimp only
  rw [performed]
  rfl

/-- The recorded questions are enough to tell what both phases give over the overlay. -/
structure Decided (project : Project C H D) : Prop where
  finished : project.fs.lookups = none
  config : (project.fs.state.overlaid compiler.parseConfig).run base = .ok project.generation.config
  configAsked : recorded base project.fs.state compiler.parseConfig ⊆ project.buildQueries
  programAsked : recorded base project.fs.state (compiler.newProgram project.generation.config) ⊆
    project.buildQueries

variable {compiler base}

private theorem recorded_build (state : State) (config : C) : recorded base state (compiler.build config) =
      recorded base state (compiler.newProgram config) := by
  unfold Compiler.build
  rw [recorded_bind]
  exact union_empty _

variable (compiler base) in
private theorem run_build (state : State) (config : C) :
    ((state.overlaid (compiler.build config)).run base).config = config ∧
      ((state.overlaid (compiler.build config)).run base).kind = .rebuilt := by
  unfold Compiler.build
  rw [run_overlaid_bind]
  exact ⟨rfl, rfl⟩

private theorem buildFromScratch_ok {state : State} {generation : Generation C H D}
    (built : (state.overlaid compiler.buildFromScratch).run base = .ok generation) :
    (state.overlaid compiler.parseConfig).run base = .ok generation.config ∧
      generation.kind = .rebuilt ∧ recorded base state compiler.buildFromScratch =
        recorded base state compiler.parseConfig ∪
          recorded base state (compiler.newProgram generation.config) := by
  unfold Compiler.buildFromScratch at built ⊢
  rw [run_overlaid_bind] at built
  rw [recorded_bind]
  cases parsed : (state.overlaid compiler.parseConfig).run base with
  | error error =>
    rw [parsed] at built
    exact nomatch built
  | ok config =>
    rw [parsed] at built
    rw [run_overlaid_bind] at built
    cases built
    obtain ⟨same, kind⟩ := run_build compiler base state config
    rw [recorded_bind, recorded_build, same]
    exact ⟨rfl, kind, congrArg _ (union_empty _)⟩

private theorem Decided.decides {project : Project C H D} (decided : Decided compiler base project)
    {other : Base} (alike : ∀ question, bundled question.path → other question = base question)
    (agree : ∀ question ∈ project.buildQueries, other question = base question) :
    (project.fs.state.overlaid compiler.buildFromScratch).run other =
      (project.fs.state.overlaid compiler.buildFromScratch).run base := by
  refine run_eq_of_recorded project.fs.state _ alike fun question member => agree question ?_
  unfold Compiler.buildFromScratch at member
  rw [recorded_bind, decided.config] at member
  rw [recorded_bind, recorded_build] at member
  rcases mem_union.mp member with parsing | building
  · exact decided.configAsked parsing
  · rcases mem_union.mp building with program | none
    · exact decided.programAsked program
    · exact nomatch none

section

variable {project : Project C H D} {candidate : Candidate C H D} {changes : List FileChange}

variable (compiler base) in
private theorem prepareUpdate_spec (generation : Generation C H D) (path : Path) (state : State) :
    let after := (state.overlaid (compiler.prepareUpdate generation path)).run base
    after.config = generation.config ∧ (after.kind = .rebuilt →
      recorded base state (compiler.newProgram generation.config) ⊆
        recorded base state (compiler.prepareUpdate generation path)) := by
  intro after
  unfold after Compiler.prepareUpdate
  rw [run_overlaid_bind, recorded_bind]
  cases (state.overlaid (compiler.reuseProgram generation.program path)).run base with
  | some program => exact ⟨rfl, nofun⟩
  | none =>
    refine ⟨(run_build compiler base state generation.config).1, fun _ => ?_⟩
    refine .trans ?_ subset_union_right
    exact (recorded_build state generation.config).ge

theorem candidate_spec (prepared : Prepared compiler base changes project candidate) :
    candidate.fs.lookups = none ∧ match candidate.replaced with
      | some path =>
        candidate.generation =
            (candidate.fs.state.overlaid (compiler.prepareUpdate project.generation path)).run base ∧
          candidate.queries =
            recorded base candidate.fs.state (compiler.prepareUpdate project.generation path)
      | none =>
        (candidate.fs.state.overlaid compiler.buildFromScratch).run base = .ok candidate.generation ∧
          candidate.queries = recorded base candidate.fs.state compiler.buildFromScratch := by
  have started : candidate.edit.fs.lookups = none := Edit.applyAll_lookups prepared.applied
  have built := prepared.built
  unfold Project.candidateProgram OverlayFs.buildScope at built
  rw [started, ← prepared.replaced] at built
  cases replaced : candidate.replaced with
  | some path =>
    obtain ⟨after, performed, queries⟩ := OverlayFs.scoped_spec base
      (compiler.prepareUpdate project.generation path) candidate.edit.fs.state
    rw [replaced] at built
    simp only [Bool.false_eq_true, if_false, performed] at built
    obtain ⟨made, rest⟩ := Prod.mk.inj built
    obtain ⟨asked, left⟩ := Prod.mk.inj
      (rest : (after.queries, (⟨candidate.edit.fs.state, none⟩ : OverlayFs)) = _)
    rw [← left, ← asked]
    exact ⟨rfl, (Except.ok.inj made).symm, queries⟩
  | none =>
    obtain ⟨after, performed, queries⟩ :=
      buildProgram_spec compiler base candidate.edit.fs.state
    rw [replaced] at built
    simp only [performed] at built
    obtain ⟨made, rest⟩ := Prod.mk.inj built
    obtain ⟨asked, left⟩ := Prod.mk.inj
      (rest : (after.queries, (⟨candidate.edit.fs.state, none⟩ : OverlayFs)) = _)
    rw [← left, ← asked]
    exact ⟨rfl, made, queries⟩

private theorem openProject_decided {stopped : Bool} {configSource : Option Text}
    (opened : Project.openProject compiler base stopped configSource = .ok project) :
    Decided compiler base project := by
  have fresh : (Project.startFs compiler configSource).lookups = none := by
    cases configSource <;> rfl
  unfold Project.openProject OverlayFs.buildScope at opened
  rw [fresh] at opened
  cases stopped with
  | true => exact nomatch opened
  | false =>
    obtain ⟨after, performed, queries⟩ :=
      buildProgram_spec compiler base (Project.startFs compiler configSource).state
    simp only [performed] at opened
    cases built : ((Project.startFs compiler configSource).state.overlaid
        compiler.buildFromScratch).run base with
    | error error =>
      rw [built] at opened
      exact nomatch opened
    | ok generation =>
      rw [built] at opened
      cases opened
      obtain ⟨config, -, both⟩ := buildFromScratch_ok built
      refine ⟨rfl, config, ?_, ?_⟩
      · exact subset_union_left.trans (both.ge.trans queries.ge)
      · exact subset_union_right.trans (both.ge.trans queries.ge)

variable (compiler base) in
/-- An update keeps what is asked: where the configuration is kept, parsing over the edited overlay
gives what it gave, by no other questions, and a chain that is built on it asks them all. In place,
the program would be built by recorded questions. -/
structure KeepsAsking (project : Project C H D) (candidate : Candidate C H D) : Prop where
  inPlace : candidate.generation.kind = .reused →
    recorded base candidate.fs.state (compiler.newProgram candidate.generation.config) ⊆
      project.buildQueries ∪ candidate.queries
  configuration : candidate.replaced.isSome →
    (candidate.fs.state.overlaid compiler.parseConfig).run base =
      (project.fs.state.overlaid compiler.parseConfig).run base
  parsing : candidate.replaced.isSome → recorded base candidate.fs.state compiler.parseConfig ⊆
    recorded base project.fs.state compiler.parseConfig
  chain : ∀ path ∈ candidate.replaced, candidate.generation.kind = .rebuilt →
    recorded base project.fs.state compiler.parseConfig ⊆
      recorded base candidate.fs.state (compiler.prepareUpdate project.generation path)
  rebase : rebaseAfterUpdates ≤ candidate.generation.updates →
    recorded base candidate.fs.state compiler.parseConfig ⊆
      recorded base candidate.fs.state (compiler.newProgram candidate.generation.config)

private theorem commit_decided (decided : Decided compiler base project)
    (prepared : Prepared compiler base changes project candidate)
    (keeps : KeepsAsking compiler base project candidate) :
    Decided compiler base (project.commit candidate) := by
  obtain ⟨finished, spec⟩ := candidate_spec prepared
  cases replaced : candidate.replaced with
  | none =>
    rw [replaced] at spec
    obtain ⟨built, queries⟩ := spec
    obtain ⟨config, kind, both⟩ := buildFromScratch_ok built
    have taken : (project.commit candidate).buildQueries = candidate.queries := by
      unfold Project.commit
      rw [kind]
      rfl
    refine ⟨finished, config, ?_, ?_⟩
    · rw [taken, queries, both]
      exact subset_union_left
    · rw [taken, queries, both]
      exact subset_union_right
  | some path =>
    rw [replaced] at spec
    have kept : candidate.replaced.isSome := by rw [replaced]; rfl
    obtain ⟨made, queries⟩ := spec
    obtain ⟨config, chain⟩ :=
      prepareUpdate_spec compiler base project.generation path candidate.fs.state
    rw [← made] at config chain
    have parsed : (candidate.fs.state.overlaid compiler.parseConfig).run base =
        .ok candidate.generation.config := by
      rw [keeps.configuration kept, decided.config, config]
    cases kind : candidate.generation.kind with
    | reused =>
      have taken : (project.commit candidate).buildQueries =
          project.buildQueries ∪ candidate.queries := by
        unfold Project.commit
        rw [kind]
        rfl
      refine ⟨finished, parsed, ?_, ?_⟩
      · rw [taken]
        exact (keeps.parsing kept).trans (decided.configAsked.trans subset_union_left)
      · rw [taken]
        exact keeps.inPlace kind
    | rebuilt =>
      have taken : (project.commit candidate).buildQueries = candidate.queries := by
        unfold Project.commit
        rw [kind]
        rfl
      refine ⟨finished, parsed, ?_, ?_⟩
      · rw [taken, queries]
        exact (keeps.parsing kept).trans (keeps.chain path replaced kind)
      · rw [taken, queries]
        change recorded base candidate.fs.state
          (compiler.newProgram candidate.generation.config) ⊆ _
        rw [config]
        exact chain kind

private theorem rebaseIfDue_decided (decided : Decided compiler base project)
    (asks : rebaseAfterUpdates ≤ project.generation.updates →
      recorded base project.fs.state compiler.parseConfig ⊆
        recorded base project.fs.state (compiler.newProgram project.generation.config)) :
    Decided compiler base (project.rebaseIfDue compiler base).2 := by
  unfold Project.rebaseIfDue OverlayFs.buildScope
  split
  · exact decided
  · rename_i due
    obtain ⟨after, performed, queries⟩ := OverlayFs.scoped_spec base
      (compiler.freshChain project.generation) project.fs.state
    have config : ((project.fs.state.overlaid (compiler.freshChain project.generation)).run base).config =
        project.generation.config := (run_build compiler base project.fs.state project.generation.config).1
    have asked : recorded base project.fs.state (compiler.freshChain project.generation) =
        recorded base project.fs.state (compiler.newProgram project.generation.config) :=
      recorded_build project.fs.state project.generation.config
    rw [decided.finished]
    simp only [performed]
    refine ⟨rfl, ?_, ?_, ?_⟩
    · rw [config]
      exact decided.config
    · change _ ⊆ after.queries
      rw [queries, asked]
      exact asks (Nat.le_of_not_lt due)
    · change recorded base project.fs.state (compiler.newProgram
        ((project.fs.state.overlaid (compiler.freshChain project.generation)).run base).config) ⊆
          after.queries
      rw [config, queries, asked]

variable (compiler base) in
/-- The projects of a history over one disk, in which every update keeps what is asked. -/
inductive Lived : Project C H D → Prop
  | opened {project : Project C H D} (stopped : Bool) (configSource : Option Text)
      (opened : Project.openProject compiler base stopped configSource = .ok project) :
      Lived project
  | updated {project : Project C H D} (lived : Lived project) (stopped : ℕ → Bool)
      (changes : List FileChange)
      (keeps : ∀ candidate, project.prepare compiler base stopped changes = .ok (some candidate) →
        KeepsAsking compiler base project candidate) :
      Lived (Project.update compiler base stopped changes project).2

private theorem update_decided (decided : Decided compiler base project) (stopped : ℕ → Bool)
    (keeps : ∀ candidate, project.prepare compiler base stopped changes = .ok (some candidate) →
      KeepsAsking compiler base project candidate) :
    Decided compiler base (Project.update compiler base stopped changes project).2 := by
  unfold Project.update
  split
  · exact decided
  · exact decided
  · rename_i candidate prepared
    have kept := keeps candidate prepared
    exact rebaseIfDue_decided (commit_decided decided (prepare_some prepared) kept) kept.rebase

private theorem Lived.decided (lived : Lived compiler base project) : Decided compiler base project := by
  induction lived with
  | opened stopped configSource opened => exact openProject_decided opened
  | updated lived stopped changes keeps decided => exact update_decided decided stopped keeps

/-- In a history whose updates keep what is asked, any disk that answers the recorded questions as
the actual one does gives the same configuration and program from scratch. -/
theorem queries_decide_program (lived : Lived compiler base project) (other : Base)
    (alike : ∀ question, bundled question.path = true → other question = base question)
    (agree : ∀ question ∈ project.buildQueries, other question = base question) :
    (project.fs.state.overlaid compiler.buildFromScratch).run other =
      (project.fs.state.overlaid compiler.buildFromScratch).run base :=
  lived.decided.decides alike agree

end

end

namespace OneFile

def file : SourceFile Unit := ⟨['/', 'a'], false, true, false, [], ()⟩

def program : Program Unit Unit :=
  ⟨[file], fun path => if path = ['/', 'a'] then some file else none, fun _ => none, fun _ => false⟩

def compiler (reuses : Bool) : Compiler ℕ Unit Unit where
  configPath := ['/', 't']
  absolute path := .ok path.clean
  lossy := id
  parseConfig := .ask (.reads ['/', 't']) fun (text : Option Text) =>
    .done (.ok (text.getD []).length)
  newProgram _ := .ask (.reads ['/', 'a']) fun _ => .done program
  reuseProgram _ _ := .done (if reuses then some program else none)
  preserveExportIdentities _ _ := false

def disk (length : ℕ) : Base
  | .files _ => false
  | .directories _ => false
  | .stats _ => none
  | .realpaths path => path
  | .entries _ => ⟨[], [], none⟩
  | .reads path => if path = ['/', 't'] then some (List.replicate length 0) else none

def edit : FileChange := ⟨['/', 'a'], [], false, 1⟩

def opened : Project ℕ Unit Unit :=
  ⟨OverlayFs.new, ⟨1, program, 0, .rebuilt⟩, {.reads ['/', 'a'], .reads ['/', 't']}, ∅, 0,
    ImportGraph.rebuild program, ∅, none⟩

def edited (reuses : Bool) : Project ℕ Unit Unit :=
  (Project.update (compiler reuses) (disk 1) (fun _ => false) [edit] opened).2

end OneFile

open OneFile in
/-- An edit in place records nothing anew and keeps what was recorded. -/
theorem queries_decide_program_edited :
    Project.openProject (compiler true) (disk 1) false none = .ok opened ∧
      (edited true).buildQueries = {.reads ['/', 'a'], .reads ['/', 't']} ∧
      ∀ other : Base, (∀ question, bundled question.path = true → other question = disk 1 question) →
        (∀ question ∈ (edited true).buildQueries, other question = disk 1 question) →
        ((edited true).fs.state.overlaid (compiler true).buildFromScratch).run other =
          ((edited true).fs.state.overlaid (compiler true).buildFromScratch).run (disk 1) := by
  have begun : Project.openProject (compiler true) (disk 1) false none = .ok opened := rfl
  refine ⟨begun, rfl, fun other alike agree => queries_decide_program
    (.updated (.opened false none begun) (fun _ => false) [edit] ?_) other alike agree⟩
  intro candidate prepared
  cases prepared
  refine ⟨fun _ => ?_, fun _ => rfl, fun _ => Finset.Subset.refl _, fun _ _ => nofun, fun due => ?_⟩
  · exact empty_subset _
  · exact absurd due (by decide)

open OneFile in
/-- A chain built afresh on the kept configuration forgets that `/t` was read. -/
theorem fresh_chain_forgets_configuration :
    Project.openProject (compiler false) (disk 1) false none = .ok opened ∧
      (∀ question, bundled question.path = true → disk 2 question = disk 1 question) ∧
      (∀ question ∈ (edited false).buildQueries, disk 2 question = disk 1 question) ∧
      (((edited false).fs.state.overlaid (compiler false).buildFromScratch).run (disk 2)).map
          Generation.config ≠
        (((edited false).fs.state.overlaid (compiler false).buildFromScratch).run (disk 1)).map
          Generation.config := by
  have emptied : (edited false).buildQueries = ∅ := rfl
  refine ⟨rfl, fun question library => ?_, fun question member => ?_, ?_⟩
  · cases question with
    | reads path =>
      have other : path ≠ ['/', 't'] := by
        rintro rfl
        exact nomatch library
      exact (if_neg other).trans (if_neg other).symm
    | _ => rfl
  · rw [emptied] at member
    exact nomatch member
  · intro same
    exact nomatch same

end SolidChecker.Building
