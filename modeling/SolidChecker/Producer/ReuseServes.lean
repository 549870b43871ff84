/- source: apps/solid-typefacts/src/passes.rs -/

import SolidChecker.Producer.ReuseRefresh

namespace SolidChecker.Producer

open Foundation

variable {T E O D N K U : Type} [DecidableEq N]

noncomputable def SourceProgram.runPass (syntaxes : FileSyntax T N)
    (pass : PassReads T E O K → Asking N U) (program : SourceProgram T E O) (work : PassWork K) :
    PassOutput N U :=
  let ran := (pass (program.passReads work.path work.run work.locations work.scan)).run
    fun name => decide (name ∈ syntaxes.census program.files)
  ⟨ran.1, ran.2⟩

/-- A reuse over a program that changes; `base` is the program of the last table, and lookups and
keeps are made while a table is open. -/
structure Reusing (T E O D N K U : Type) where
  reuse : Reuse D N K U
  base : SourceProgram T E O
  program : SourceProgram T E O
  serving : Bool

namespace Reusing

def start (enabled : Bool) (program : SourceProgram T E O) : Reusing T E O D N K U :=
  ⟨Reuse.new enabled, program, program, false⟩

/-- One step: a rebuild or an announced replacement closes the table, a refresh opens one. -/
inductive Step [DecidableEq D] [DecidableEq K] (digests : Digests T E O D)
    (syntaxes : FileSyntax T N) (pass : PassReads T E O K → Asking N U) :
    Reusing T E O D N K U → Reusing T E O D N K U → Prop
  | rebuild (state : Reusing T E O D N K U) (program : SourceProgram T E O) :
      Step digests syntaxes pass state ⟨state.reuse.programRebuilt, state.base, program, false⟩
  | replace (state : Reusing T E O D N K U) (path : Path) (program : SourceProgram T E O)
      (kept : state.program.Since {path.clean} program) :
      Step digests syntaxes pass state ⟨state.reuse.fileReplaced path, state.base, program, false⟩
  | refresh (state : Reusing T E O D N K U) (exportChanges : Option (Finset Path))
      (announced : state.reuse.rebuilt = false → ∀ moved, exportChanges = some moved →
        ∀ path, state.program.exports path ≠ state.base.exports path → path ∈ moved) :
      Step digests syntaxes pass state
        ⟨state.reuse.refresh digests syntaxes state.program exportChanges, state.program,
          state.program, true⟩
  | census (state : Reusing T E O D N K U) (serving : state.serving = true) :
      Step digests syntaxes pass state
        { state with reuse := (state.reuse.propertyCensus digests syntaxes state.program).2 }
  | lookup (state : Reusing T E O D N K U) (work : PassWork K) (serving : state.serving = true) :
      Step digests syntaxes pass state
        { state with reuse := (state.reuse.lookup digests syntaxes state.program work).2 }
  | keep (state : Reusing T E O D N K U) (work : PassWork K) (serving : state.serving = true) :
      Step digests syntaxes pass state
        { state with reuse := state.reuse.keep work (state.program.runPass syntaxes pass work) }

section

variable {digests : Digests T E O D} {syntaxes : FileSyntax T N}
  {pass : PassReads T E O K → Asking N U}

structure Sound (digests : Digests T E O D) (syntaxes : FileSyntax T N)
    (pass : PassReads T E O K → Asking N U) (state : Reusing T E O D N K U) : Prop where
  memo : HalvesHold digests syntaxes state.reuse.censusFiles
  settled : state.reuse.graph = none ∧ state.reuse.rebuilt = true ∨
    state.reuse.Settled digests syntaxes pass state.base
  since : state.reuse.rebuilt = false → state.base.Since state.reuse.replaced state.program
  open_table : state.serving = true → state.base = state.program ∧
    state.reuse.Settled digests syntaxes pass state.program ∧
    ∀ census, state.reuse.census = some census → census = syntaxes.census state.program.files

private theorem start_sound (enabled : Bool) (program : SourceProgram T E O) :
    (start enabled program : Reusing T E O D N K U).Sound digests syntaxes pass :=
  ⟨fun _ _ _ found => absurd found (by simp [start, Reuse.new]), .inl ⟨rfl, rfl⟩,
    fun unbuilt => absurd unbuilt (by simp [start, Reuse.new]),
    fun serving => absurd serving (by simp [start])⟩

variable {program : SourceProgram T E O} {entries : Path → Option (Entry N K U)}

private theorem settled_with {reuse : Reuse D N K U}
    (settled : reuse.Settled digests syntaxes pass program) (rebuilt : Bool)
    (census : Option (Finset N)) (replaced : Finset Path)
    {censusFiles : Path → Option (D × Finset N)} {censusWrites : Option (CensusWrites N)}
    (holds : ∀ path entry, entries path = some entry → entry.Holds pass program path)
    (counted : ∀ writes, censusWrites = some writes →
      Counted digests syntaxes program.files (censusFiles, writes)) :
    Reuse.Settled digests syntaxes pass program { reuse with
      rebuilt, census, replaced, entries, censusFiles, censusWrites } :=
  ⟨settled.graph, settled.options, settled.ambient, settled.ambientReads, settled.ambientPaths,
    settled.snapshot, holds, counted⟩

section

variable {state : Reusing T E O D N K U} (sound : state.Sound digests syntaxes pass)

include sound

private theorem rebuild_sound (program : SourceProgram T E O) :
    Sound digests syntaxes pass ⟨state.reuse.programRebuilt, state.base, program, false⟩ := by
  refine ⟨sound.memo, ?_, fun unbuilt => absurd unbuilt (by simp [Reuse.programRebuilt]),
    fun serving => absurd serving (by simp)⟩
  rcases sound.settled with ⟨absent, -⟩ | settled
  · exact .inl ⟨absent, rfl⟩
  · exact .inr (settled_with settled _ _ _ settled.entries settled.counted)

private theorem replace_sound (path : Path) (kept : state.program.Since {path.clean} program) :
    Sound digests syntaxes pass ⟨state.reuse.fileReplaced path, state.base, program, false⟩ := by
  refine ⟨sound.memo, ?_, fun unbuilt => ?_, fun serving => absurd serving (by simp)⟩
  · rcases sound.settled with fresh | settled
    · exact .inl fresh
    · exact .inr (settled_with settled _ _ _ settled.entries settled.counted)
  · have both := (sound.since unbuilt).trans kept
    rw [Finset.union_comm, ← Finset.insert_eq] at both
    exact both

private theorem entries_sound (serving : state.serving)
    (holds : ∀ path entry, entries path = some entry → entry.Holds pass state.program path) :
    Sound digests syntaxes pass { state with reuse := { state.reuse with entries } } := by
  obtain ⟨same, settled, answered⟩ := sound.open_table serving
  have held : ({ state.reuse with entries }).Settled digests syntaxes pass
      state.program := settled_with settled _ _ _ holds settled.counted
  exact ⟨sound.memo, .inr (same.symm ▸ held), sound.since, fun _ => ⟨same, held, answered⟩⟩

private theorem keep_sound (serving : state.serving) (work : PassWork K) :
    Sound digests syntaxes pass { state with
      reuse := state.reuse.keep work (state.program.runPass syntaxes pass work) } := by
  obtain ⟨-, settled, -⟩ := sound.open_table serving
  unfold Reuse.keep
  split
  · exact sound
  · split
    · exact sound
    · next reads found =>
        obtain ⟨graph, held, found⟩ := Option.bind_eq_some_iff.mp found
        obtain ⟨place, placed, rfl⟩ := Option.map_eq_some_iff.mp found
        cases held.symm.trans settled.graph
        refine entries_sound sound serving fun path entry found => ?_
        by_cases here : path = work.path
        · subst here
          rw [Function.update_self, Option.some.injEq] at found
          subst found
          refine ⟨?_, Graph.reads_indexes _ _ settled.ambientReads placed, _, rfl⟩
          exact Graph.mem_membersOf.mp
            (List.mem_of_getElem? ((Graph.ofProgram_id digests state.program).mp placed))
        · rw [Function.update_of_ne here] at found
          exact settled.entries path entry found

variable [DecidableEq D]

private theorem refresh_sound {exportChanges : Option (Finset Path)}
    (announced : state.reuse.rebuilt = false → ∀ moved, exportChanges = some moved →
      ∀ path, state.program.exports path ≠ state.base.exports path → path ∈ moved) :
    Sound digests syntaxes pass ⟨state.reuse.refresh digests syntaxes state.program exportChanges,
      state.program, state.program, true⟩ := by
  have settles : ∀ reuse, HalvesHold digests syntaxes reuse.censusFiles →
      reuse.Settled digests syntaxes pass state.program → reuse.census = none →
      Sound digests syntaxes pass ⟨reuse, state.program, state.program, true⟩ :=
    fun reuse memo settled unasked =>
    ⟨memo, .inr settled, fun _ => .refl _ _, fun _ => ⟨rfl, settled,
      fun census asked => absurd (unasked.symm.trans asked) (by simp)⟩⟩
  unfold Reuse.refresh
  dsimp only
  split
  · next refreshed done =>
      obtain ⟨moved, given, done⟩ := Option.bind_eq_some_iff.mp done
      have unbuilt := (Reuse.refreshInPlace_cases done).1
      rcases sound.settled with ⟨-, built⟩ | settled
      · exact absurd (unbuilt.symm.trans built) (by decide)
      · obtain ⟨settled, memo, -, unasked, -⟩ := Reuse.refreshInPlace_settled
          (settled_with settled _ none ∅ settled.entries settled.counted) sound.memo
          (sound.since unbuilt) (announced unbuilt moved given) done
        exact settles refreshed memo settled unasked
  · let started : Reuse D N K U :=
      { state.reuse with census := none, replaced := ∅, censusWrites := none }
    have held : started.graph = none ∨ started.Settled digests syntaxes pass state.base := by
      rcases sound.settled with ⟨absent, -⟩ | settled
      · exact .inl absent
      · exact .inr (settled_with settled _ _ _ settled.entries fun _ counted =>
          absurd counted (by simp))
    have settled := Reuse.refreshAll_settled held sound.since rfl
    obtain ⟨entries, fields⟩ := Reuse.refreshAll_fields digests state.program started
    refine settles _ ?_ settled ?_
    · exact fields ▸ sound.memo
    · exact fields ▸ rfl

private theorem census_sound (serving : state.serving) : Sound digests syntaxes pass { state with
      reuse := (state.reuse.propertyCensus digests syntaxes state.program).2 } ∧
    (state.reuse.propertyCensus digests syntaxes state.program).1 =
      syntaxes.census state.program.files := by
  obtain ⟨same, settled, answered⟩ := sound.open_table serving
  obtain ⟨censusFiles, census, censusWrites, asked, memo, answers, counted⟩ :=
    propertyCensus_counted sound.memo answered settled.counted
  rw [asked]
  have held : ({ state.reuse with censusFiles, census, censusWrites }).Settled
      digests syntaxes pass state.program := settled_with settled _ _ _ settled.entries counted
  exact ⟨⟨memo, .inr (same.symm ▸ held), sound.since, fun _ => ⟨same, held, answers⟩⟩, rfl⟩

variable [DecidableEq K]

private theorem lookup_sound (serving : state.serving) (work : PassWork K) :
    Sound digests syntaxes pass { state with
      reuse := (state.reuse.lookup digests syntaxes state.program work).2 } := by
  have counted := (census_sound sound serving).1
  unfold Reuse.lookup
  split
  · exact sound
  · split
    · exact sound
    · split
      · exact sound
      · split
        · exact sound
        · dsimp only
          split
          · refine entries_sound counted serving fun path entry found => ?_
            by_cases here : path = work.path
            · rw [here, Function.update_self] at found
              exact absurd found (by simp)
            · rw [Function.update_of_ne here] at found
              exact (counted.open_table serving).2.1.entries path entry found
          · exact counted

variable {output : PassOutput N U} {work : PassWork K}

omit sound in
private theorem lookup_served
    (served : (state.reuse.lookup digests syntaxes state.program work).1 = some output) :
    ∃ entry, state.reuse.entries work.path = some entry ∧ entry.scan = work.scan ∧
      entry.locations = work.locations ∧ entry.demands = work.run ∧ entry.output = output ∧
      ∀ asked ∈ output.census,
        decide (asked.1 ∈ (state.reuse.propertyCensus digests syntaxes state.program).1) =
          asked.2 := by
  unfold Reuse.lookup at served
  split at served
  · exact absurd served (by simp)
  · split at served
    · exact absurd served (by simp)
    · next entry found =>
        split at served
        · exact absurd served (by simp)
        · next matched =>
            rw [Bool.not_eq_false, Entry.serves, decide_eq_true_eq] at matched
            refine ⟨entry, found, matched.1, matched.2.1, matched.2.2, ?_⟩
            split at served
            · next unasked =>
                cases served
                exact ⟨rfl, fun asked member => absurd (unasked ▸ member) List.not_mem_nil⟩
            · dsimp only at served
              split at served
              · exact absurd served (by simp)
              · next agreed =>
                  cases served
                  refine ⟨rfl, fun asked member => ?_⟩
                  by_contra differs
                  exact agreed (List.any_eq_true.mpr ⟨asked, member, decide_eq_true differs⟩)

private theorem lookup_runs (serving : state.serving)
    (served : (state.reuse.lookup digests syntaxes state.program work).1 = some output) :
    output = state.program.runPass syntaxes pass work := by
  obtain ⟨-, settled, -⟩ := sound.open_table serving
  obtain ⟨entry, found, scan, locations, run, rfl, answers⟩ := lookup_served served
  rw [(census_sound sound serving).2] at answers
  obtain ⟨oracle, ran⟩ := (settled.entries work.path entry found).output
  rw [scan, locations, run] at ran
  have recorded : ∀ asked ∈ ((pass (state.program.passReads work.path work.run work.locations
      work.scan)).run oracle).2, decide (asked.1 ∈ syntaxes.census state.program.files) =
        asked.2 := by
    rw [ran]
    exact answers
  rw [SourceProgram.runPass, Asking.run_eq_of_recorded _ recorded, ran]

end

variable [DecidableEq D] [DecidableEq K]

private theorem step_sound {state next : Reusing T E O D N K U} (sound : state.Sound digests syntaxes pass)
    (step : Step digests syntaxes pass state next) : next.Sound digests syntaxes pass := by
  cases step with
  | rebuild program => exact rebuild_sound sound program
  | replace path program kept => exact replace_sound sound path kept
  | refresh exportChanges announced => exact refresh_sound sound announced
  | census serving => exact (census_sound sound serving).1
  | lookup work serving => exact lookup_sound sound serving work
  | keep work serving => exact keep_sound sound serving work

private theorem run_sound {enabled : Bool} {state : Reusing T E O D N K U}
    (run : Relation.ReflTransGen (Step digests syntaxes pass) (start enabled program) state) :
    state.Sound digests syntaxes pass := by
  induction run with
  | refl => exact start_sound enabled program
  | tail _ step ih => exact step_sound ih step

/-- In every run, whatever a lookup serves is what the pass gives on the current program, and the
census is the union of the property writes of its files. -/
theorem lookup_serves_current {enabled : Bool} {program : SourceProgram T E O}
    {state : Reusing T E O D N K U}
    (run : Relation.ReflTransGen (Step digests syntaxes pass) (start enabled program) state)
    (serving : state.serving = true) :
    (∀ work output, (state.reuse.lookup digests syntaxes state.program work).1 = some output →
      output = state.program.runPass syntaxes pass work) ∧
    (state.reuse.propertyCensus digests syntaxes state.program).1 =
      syntaxes.census state.program.files :=
  ⟨fun _ _ => lookup_runs (run_sound run) serving, (census_sound (run_sound run) serving).2⟩

end

namespace TwoFiles

def digests : Digests Bool Unit Unit ℕ := .encoded Bool Unit Unit

def syntaxes : FileSyntax Bool Unit := ⟨fun _ => false, fun _ _ => ∅⟩

def program (text : Bool) : SourceProgram Bool Unit Unit where
  files := [⟨['a'], true, false⟩, ⟨['b'], text, false⟩]
  getSourceFile := fun path => if path = ['b'] then some ⟨['b'], text, false⟩ else none
  resolutions := 0
  exports := fun _ => ()
  options := ()
  distinct := by cases text <;> decide
  found := by
    intro path file found
    obtain ⟨-, same⟩ := Option.ite_none_right_eq_some.mp found
    cases same
    exact List.mem_cons_of_mem _ List.mem_cons_self

def pass (reads : PassReads Bool Unit Unit Unit) : Asking Unit (Option Bool) :=
  .answer ((reads.inputs reads.path).bind Prod.fst)

def work : PassWork Unit := ⟨['a'], none, [], false, true⟩

def opened : Reusing Bool Unit Unit ℕ Unit Unit (Option Bool) :=
  ⟨(Reuse.new true).refresh digests syntaxes (program true) none, program true, program true, true⟩

noncomputable def kept : Reusing Bool Unit Unit ℕ Unit Unit (Option Bool) :=
  { opened with reuse := opened.reuse.keep work ((program true).runPass syntaxes pass work) }

noncomputable def reopened : Reusing Bool Unit Unit ℕ Unit Unit (Option Bool) :=
  ⟨(kept.reuse.fileReplaced ['b']).refresh digests syntaxes (program false) (some ∅), program false,
    program false, true⟩

noncomputable def entry : Entry Unit Unit (Option Bool) :=
  ⟨none, [], false, {0}, (program true).runPass syntaxes pass work⟩

def graph : Graph ℕ :=
  ⟨[['a'], ['b']], [[], []], digests.graph [(['a'], []), (['b'], [])],
    [digests.resolutions ([], []), digests.resolutions ([], [])]⟩

private theorem reopened_run :
    Relation.ReflTransGen (Step digests syntaxes pass) (start true (program true)) reopened := by
  have first : Relation.ReflTransGen (Step digests syntaxes pass) (start true (program true)) kept :=
    (Relation.ReflTransGen.single (.refresh _ none fun _ _ given => absurd given (by simp))).tail
      (.keep _ work rfl)
  have replaced : (program true).Since {Path.clean ['b']} (program false) :=
    ⟨.cons ⟨rfl, .inl rfl⟩ (.cons ⟨rfl, .inr (by decide)⟩ .nil), rfl⟩
  exact (first.tail (.replace _ ['b'] _ replaced)).tail
    (.refresh _ (some ∅) fun _ _ _ _ differ => absurd rfl differ)

private theorem graph_eq :
    (Graph.build digests (program true)).computeResolutions digests (program true) = graph := by
  have files : ((program true).files.map ProgramFile.path).toFinset = {['a'], ['b']} := rfl
  have members : Graph.membersOf (program true) = [['a'], ['b']] := by
    rw [Graph.membersOf, files]
    exact (Finset.sort_insert (r := (· ≤ ·)) (by decide) (by decide)).trans
      (congrArg _ (Finset.sort_singleton _ _))
  have unresolved : (program true).resolutions = 0 := rfl
  unfold Graph.build Graph.computeResolutions Graph.recordsOf Graph.edgesOf
  rw [members]
  simp [graph, unresolved]

private theorem kept_eq : kept.reuse = ⟨true, some graph, false, some (digests.options ()),
    some (digests.ambient []), ∅, Reuse.snapshotOf digests (program true) graph,
    Function.update (fun _ => none) ['a'] (some entry), fun _ => none, none, none, ∅, ∅⟩ := by
  have now : Reuse.graphNow digests (program true) (.new true : Reuse ℕ Unit Unit (Option Bool)) =
      graph := graph_eq
  have all : opened.reuse = Reuse.refreshAll digests (program true) (.new true) := rfl
  rw [kept, all, Reuse.refreshAll, now]
  rfl

private theorem reopened_entry : reopened.reuse.entries ['a'] = some entry := by
  have one : (insert (Path.clean ['b']) (∅ : Finset Path)).sort (· ≤ ·) = [['b']] :=
    Finset.sort_singleton _ _
  rw [reopened, kept_eq, Reuse.refresh, Reuse.fileReplaced, Option.bind_some, Reuse.refreshInPlace,
    one, Finset.sort_empty]
  rfl

end TwoFiles

/-- The output kept for a file is served after another file was replaced in place, and is the pass's
on the program as it now is. -/
theorem lookup_serves_kept :
    (TwoFiles.reopened.reuse.lookup TwoFiles.digests TwoFiles.syntaxes (TwoFiles.program false)
        TwoFiles.work).1 =
      some ((TwoFiles.program false).runPass TwoFiles.syntaxes TwoFiles.pass TwoFiles.work) ∧
    (TwoFiles.reopened.reuse.propertyCensus TwoFiles.digests TwoFiles.syntaxes
      (TwoFiles.program false)).1 = ∅ := by
  obtain ⟨serves, census⟩ := lookup_serves_current TwoFiles.reopened_run rfl
  have served : ∃ output, (TwoFiles.reopened.reuse.lookup TwoFiles.digests TwoFiles.syntaxes
      (TwoFiles.program false) TwoFiles.work).1 = some output := by
    rw [Reuse.lookup, if_neg (by decide), show TwoFiles.work.path = ['a'] from rfl,
      TwoFiles.reopened_entry]
    exact ⟨_, rfl⟩
  obtain ⟨output, served⟩ := served
  exact ⟨served.trans (congrArg some (serves TwoFiles.work output served)), census⟩

end Reusing

end SolidChecker.Producer
