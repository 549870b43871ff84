/- source: solid-facts-backend/src/lib.rs -/

import SolidChecker.Backend.Scope

namespace SolidChecker.Backend

open Foundation (Act)
open Foundation.Act (Frames Meets Stays)
open Foundation.Grouping (sortByKey)
open Foundation.Table (lookup_insert_eq lookup_erase_eq mem_keys_iff)
open Producer (Path)

variable {S O A C R F B I ε τ T W : Type}

def ModuleGraph.rowsOf (graph : ModuleGraph I) (path : Path) : List (AttestedImport I) :=
  (graph.imports.filter fun row => decide (row.1 = path)).map Prod.snd

/-- The producers behind a Type Facts session: the one that runs, and what each answers. The epoch
tells those that are `counted` apart. -/
structure Producers (τ W I : Type) where
  usable : τ → Prop
  running : τ → Option W
  counted : W → Prop
  answer : W → List Path → ModuleGraph I

namespace NativeSession

section

def ordered (rows : List (AttestedImport I)) : List (AttestedImport I) :=
  sortByKey (fun row => toLex (row.start, row.stop)) rows

private theorem attestedRows_lookup (graph : ModuleGraph I) (path : Path) :
    ((attestedRows graph).lookup path).getD [] = graph.rowsOf path := by
  suffices loop : ∀ (imports : List (Path × AttestedImport I))
      (rows : Finmap fun _ : Path => List (AttestedImport I)),
      ((imports.foldl (fun rows row =>
        rows.insert row.1 ((rows.lookup row.1).getD [] ++ [row.2])) rows).lookup path).getD [] =
        (rows.lookup path).getD [] ++ (imports.filter fun row => row.1 = path).map Prod.snd from
    (loop graph.imports ∅).trans (List.nil_append _)
  intro imports
  induction imports with
  | nil => exact fun rows => (List.append_nil _).symm
  | cons row imports ih =>
    intro rows
    rw [List.foldl_cons, ih, lookup_insert_eq]
    by_cases same : row.1 = path
    · rw [if_pos same.symm, List.filter_cons_of_pos (by simpa using same), List.map_cons, same,
        Option.getD_some, List.append_assoc, List.singleton_append]
    · rw [if_neg (Ne.symm same), List.filter_cons_of_neg (by simpa using same)]

private theorem recordFiles_lookup {paths : List Path} (distinct : paths.Nodup)
    (rows : Finmap fun _ : Path => List (AttestedImport I)) (index : AttestedImportIndex I)
    (path : Path) : (recordFiles paths rows index).lookup path =
      if path ∈ paths then some (ordered ((rows.lookup path).getD [])) else index.lookup path := by
  induction paths generalizing rows index with
  | nil => exact (if_neg List.not_mem_nil).symm
  | cons first paths ih =>
    obtain ⟨absent, later⟩ := List.nodup_cons.mp distinct
    have step : recordFiles (first :: paths) rows index = recordFiles paths (rows.erase first)
      (insertFile first ((rows.lookup first).getD []) index) := rfl
    rw [step, ih later, insertFile, lookup_insert_eq, lookup_erase_eq]
    by_cases same : path = first
    · subst same
      rw [if_neg absent, if_pos rfl, if_pos List.mem_cons_self]
      rfl
    · rw [if_neg same, if_neg same]
      simp only [List.mem_cons, same, false_or]

end

end NativeSession

namespace Producers

open NativeSession List

variable (producers : Producers τ W I)

def Runs (now : τ) (producer : W) : Prop := producers.running now = some producer ∧ producers.counted producer

def told (producer : W) (path : Path) : Option (List (AttestedImport I)) :=
  if path ∈ (producers.answer producer [path]).unknownImportPaths then none
  else some ((producers.answer producer [path]).rowsOf path)

def fullAttestation (producer : W) (scope : List Path) : AttestedImportIndex I :=
  recordFiles (scope.filter fun path =>
      decide (path ∉ (producers.answer producer scope).unknownImportPaths))
    (attestedRows (producers.answer producer scope)) ∅

structure Apart : Prop where
  unknown : ∀ producer asked path, path ∈ asked →
    (path ∈ (producers.answer producer asked).unknownImportPaths ↔
      path ∈ (producers.answer producer [path]).unknownImportPaths)
  rows : ∀ producer asked path, path ∈ asked →
    (producers.answer producer asked).rowsOf path = (producers.answer producer [path]).rowsOf path

variable {producers} (apart : producers.Apart)

include apart

variable {asked : List Path}

private theorem told_eq_none {producer : W} {path : Path} (member : path ∈ asked) :
    producers.told producer path = none ↔
      path ∈ (producers.answer producer asked).unknownImportPaths := by
  rw [told, apart.unknown producer asked path member]
  split
  · next unknown => exact iff_of_true rfl unknown
  · next known => exact iff_of_false (Option.some_ne_none _) known

private theorem recorded_told {producer : W} {path : Path} (member : path ∈ asked)
    (known : path ∉ (producers.answer producer asked).unknownImportPaths) :
    some (ordered (((attestedRows (producers.answer producer asked)).lookup path).getD [])) =
      (producers.told producer path).map ordered := by
  rw [attestedRows_lookup, apart.rows producer asked path member, told,
    if_neg (mt (apart.unknown producer asked path member).mpr known), Option.map_some]

private theorem fullAttestation_lookup {scope : List Path} (distinct : scope.Nodup) (producer : W)
    (path : Path) : (producers.fullAttestation producer scope).lookup path =
      if path ∈ scope then (producers.told producer path).map ordered else none := by
  rw [fullAttestation, recordFiles_lookup (distinct.filter _), Finmap.lookup_empty]
  by_cases member : path ∈ scope
  · rw [if_pos member]
    by_cases known : path ∈ (producers.answer producer scope).unknownImportPaths
    · rw [if_neg (by simp [known]), (told_eq_none apart member).mpr known, Option.map_none]
    · rw [if_pos (mem_filter.mpr ⟨member, decide_eq_true known⟩), recorded_told apart member known]
  · rw [if_neg member, if_neg fun inside => member (mem_of_mem_filter inside)]

theorem patched_eq_full {scope edited : List Path} {covered : List Path} {earlier producer : W}
    (distinct : scope.Nodup) (before : covered.Nodup) (listed : edited.Nodup)
    (count : (producers.fullAttestation earlier covered).keys.card = scope.length)
    (covers : ∀ path ∈ scope, path ∈ (producers.fullAttestation earlier covered).keys)
    (kept : ∀ path, path ∉ edited → producers.told producer path = producers.told earlier path)
    (known : (producers.answer producer
      (edited.filter fun path => path ∈ scope)).unknownImportPaths = []) :
    recordFiles (edited.filter fun path => path ∈ scope) (attestedRows (producers.answer producer
          (edited.filter fun path => path ∈ scope))) (producers.fullAttestation earlier covered) =
      producers.fullAttestation producer scope := by
  have exactly : (producers.fullAttestation earlier covered).keys = scope.toFinset := by
    refine (Finset.eq_of_subset_of_card_le (fun path member => ?_) ?_).symm
    · exact covers path (mem_toFinset.mp member)
    · rw [count, toFinset_card_of_nodup distinct]
  refine Finmap.ext_lookup fun path => ?_
  rw [recordFiles_lookup (listed.filter _), fullAttestation_lookup apart distinct]
  by_cases member : path ∈ scope
  · rw [if_pos member]
    by_cases asked : path ∈ edited
    · have inside : path ∈ edited.filter fun path => path ∈ scope :=
        mem_filter.mpr ⟨asked, decide_eq_true member⟩
      rw [if_pos inside, recorded_told apart inside (known ▸ List.not_mem_nil)]
    · have held := (mem_keys_iff _ _).mp (covers path member)
      rw [if_neg fun inside => asked (mem_of_mem_filter inside)]
      rw [fullAttestation_lookup apart before] at held ⊢
      have was : path ∈ covered := by
        by_contra absent
        exact held (if_neg absent)
      rw [if_pos was, kept path asked]
  · rw [if_neg member, if_neg fun inside => member (by
      simpa using (mem_filter.mp inside).2)]
    by_contra held
    exact member (mem_toFinset.mp (exactly ▸ (mem_keys_iff _ _).mpr held))

end Producers

section

variable (producers : Producers τ W I) (ts : TypeFacts S A C R F B I ε τ)

/-- Since `origin` the epoch has moved, or the producer is still the same and told nothing new. -/
def Since (origin now : τ) : Prop :=
  ts.restartEpoch origin < ts.restartEpoch now ∨
    (ts.restartEpoch now = ts.restartEpoch origin ∧
      ts.lastUpdateGraph now = ts.lastUpdateGraph origin ∧
      ∀ producer, producers.Runs now producer → producers.Runs origin producer)

def Kept (origin now : τ) : Prop := producers.usable now ∧ Since producers ts origin now

/-- An update was accepted: the epoch has moved, or the producer moved by it. Where the answer says
that the module graph was kept, no other file's rows differ. -/
def Moved (absolute : Path → Path) (wire : List (WireChange S)) (origin now : τ) : Prop :=
  ts.restartEpoch origin < ts.restartEpoch now ∨
    (ts.restartEpoch now = ts.restartEpoch origin ∧
      ∀ producer, producers.Runs now producer → ∃ earlier, producers.Runs origin earlier ∧
          ∀ update, ts.lastUpdateGraph now = some update → update.kept = true →
            ∀ path, (∀ change ∈ wire, absolute change.path ≠ path) →
              producers.told producer path = producers.told earlier path)

def Updates (absolute : Path → Path) (wire : List (WireChange S)) (now : τ)
    (outcome : Except (BackendError ε) PUnit × τ) : Prop :=
  match outcome.1 with
  | .error _ => Kept producers ts now outcome.2
  | .ok _ => producers.usable outcome.2 ∧ Moved producers ts absolute wire now outcome.2

structure Serves (absolute : Path → Path) : Prop where
  apart : producers.Apart
  semanticGrouped : ∀ groups now, producers.usable now →
    Kept producers ts now (ts.semanticGrouped groups now).2
  transform : ∀ facts now, producers.usable now → Kept producers ts now (ts.transform facts now).2
  cancelled : ∀ now, producers.usable now → Kept producers ts now (ts.cancelled now).2
  moduleGraph : ∀ asked now, producers.usable now →
    Kept producers ts now (ts.moduleGraph asked now).2 ∧
      ∀ graph, (ts.moduleGraph asked now).1 = .ok graph → ∃ producer,
        producers.running (ts.moduleGraph asked now).2 = some producer ∧
          graph = producers.answer producer asked
  updateDuring : ∀ wire now, wire ≠ [] → producers.usable now →
    Updates producers ts absolute wire now (ts.updateDuring wire now)
  lastUpdateGraph : ∀ now update, ts.lastUpdateGraph now = some update →
    update.epoch = ts.restartEpoch now

variable {producers ts}

theorem Since.refl (now : τ) : Since producers ts now now := .inr ⟨rfl, rfl, fun _ same => same⟩

theorem Since.trans {origin between now : τ} (first : Since producers ts origin between)
    (second : Since producers ts between now) : Since producers ts origin now := by
  rcases first with moved | ⟨epoch, graph, same⟩
  · rcases second with again | ⟨epoch, -, -⟩
    · exact .inl (moved.trans again)
    · exact .inl (moved.trans_eq epoch.symm)
  · rcases second with moved | ⟨epoch', graph', same'⟩
    · exact .inl (epoch ▸ moved)
    · exact .inr ⟨epoch'.trans epoch, graph'.trans graph, fun producer here =>
        same producer (same' producer here)⟩

private theorem Since.epoch_le {origin now : τ} (since : Since producers ts origin now) :
    ts.restartEpoch origin ≤ ts.restartEpoch now :=
  since.elim Nat.le_of_lt fun same => same.1.ge

end

namespace NativeSession

variable {producers : Producers τ W I} {ts : TypeFacts S A C R F B I ε τ}
  {tools : Tools S O A C R F ε} {absolute : Path → Path}

section

variable (serves : Serves producers ts absolute)

theorem ask_kept {α : Type} {act : Act τ (BackendError ε) α}
    (reads : ∀ now, producers.usable now → Kept producers ts now (act now).2) (origin : τ) :
    Stays (fun session => Kept producers ts origin session.typescript)
      (ask act : Step S O A C R F B I ε τ α) := by
  rintro session ⟨usable, since⟩
  obtain ⟨still, later⟩ := reads session.typescript usable
  exact ⟨still, since.trans later⟩

include serves

theorem checkCancelled_kept (cancellable : Bool) (origin : τ) :
    Stays (fun session => Kept producers ts origin session.typescript)
      (checkCancelled ts cancellable : Step S O A C R F B I ε τ PUnit) := by
  unfold checkCancelled
  split
  · refine .bind (ask_kept serves.cancelled origin) fun raised => ?_
    split
    · exact .throw _
    · exact .pure _
  · exact .pure _

theorem buildProject_kept (generation : ℕ) (cancellable : Bool)
    (retained : Option (Retained S A C)) (origin : τ) :
    Stays (fun session => Kept producers ts origin session.typescript)
      (buildProject tools ts generation cancellable retained) := by
  have polled := checkCancelled_kept (O := O) serves cancellable origin
  have cached : ∀ {α : Type} (stage : Stage A C R F ε α),
      Stays (fun session => Kept producers ts origin session.typescript)
        (withCache stage : Step S O A C R F B I ε τ α) := fun _ _ kept => kept
  refine .bind (.read _) fun session => ?_
  refine .bind polled fun _ => .bind (cached _) fun asts => ?_
  refine .bind polled fun _ => .bind (cached _) fun executions => ?_
  refine .bind polled fun _ => .bind (.ofExcept _) fun made => ?_
  refine .bind polled fun _ => .bind (cached _) fun groups => ?_
  refine .bind (.modify fun _ kept => kept) fun _ => ?_
  refine .bind (ask_kept (serves.semanticGrouped groups) origin) fun table => ?_
  refine .bind polled fun _ => .bind (cached _) fun rows => ?_
  exact .bind (.ofExcept _) fun files => .pure _

end

section

def scopeOf (facts : ProjectFacts S A C F B I) : List Path := facts.files.map FileFacts.path

def Genuine (producers : Producers τ W I) (facts : ProjectFacts S A C F B I) (now : τ) : Prop :=
  ∀ index, facts.resolvedImports = some index → ∀ producer, producers.Runs now producer →
    (scopeOf facts).Nodup ∧ index = producers.fullAttestation producer (scopeOf facts)

/-- Between calls: earlier facts of the generation, attested in the epoch, are genuine. -/
structure Faithful (producers : Producers τ W I) (ts : TypeFacts S A C R F B I ε τ)
    (session : NativeSession S O A C R F B I τ) : Prop where
  usable : producers.usable session.typescript
  epoch : ∀ epoch, session.attestedEpoch = some epoch → epoch ≤ ts.restartEpoch session.typescript
  last : ∀ facts, session.lastFacts = some facts → facts.generation ≤ session.generation ∧
    (facts.generation = session.generation →
      session.attestedEpoch = some (ts.restartEpoch session.typescript) →
      Genuine producers facts session.typescript)

/-- Once the update of an edit landed: facts attested in the epoch, of the generation before, are
genuine but for the rows of the changed files, if the update says so. -/
structure Landed (producers : Producers τ W I) (ts : TypeFacts S A C R F B I ε τ)
    (absolute : Path → Path) (changed : List Path) (nextGeneration : ℕ)
    (session : NativeSession S O A C R F B I τ) : Prop where
  usable : producers.usable session.typescript
  epoch : ∀ epoch, session.attestedEpoch = some epoch → epoch ≤ ts.restartEpoch session.typescript
  older : ∀ facts, session.lastFacts = some facts → facts.generation < nextGeneration
  last : ∀ update, ts.lastUpdateGraph session.typescript = some update → update.kept = true →
    session.attestedEpoch = some (ts.restartEpoch session.typescript) →
    ∀ facts index, session.lastFacts = some facts → facts.generation + 1 = nextGeneration →
      facts.resolvedImports = some index →
      ∀ producer, producers.Runs session.typescript producer →
        (scopeOf facts).Nodup ∧ ∃ earlier,
          index = producers.fullAttestation earlier (scopeOf facts) ∧
          ∀ path, path ∉ changed.map absolute →
            producers.told producer path = producers.told earlier path

variable {changed : List Path} {nextGeneration : ℕ}
  {session : NativeSession S O A C R F B I τ} {typescript : τ}

theorem Faithful.since (faithful : Faithful producers ts session)
    (kept : Kept producers ts session.typescript typescript) :
    Faithful producers ts { session with typescript } := by
  refine ⟨kept.1, fun epoch at_epoch => (faithful.epoch epoch at_epoch).trans kept.2.epoch_le,
    fun facts is_last => ⟨(faithful.last facts is_last).1, fun current stamped => ?_⟩⟩
  have below := faithful.epoch _ stamped
  rcases kept.2 with moved | ⟨same, -, still⟩
  · exact absurd below (not_le.mpr moved)
  · intro index attested producer running
    exact (faithful.last facts is_last).2 current (stamped.trans (congrArg some same)) index attested
      producer (still producer running)

theorem Landed.since (landed : Landed producers ts absolute changed nextGeneration session)
    (kept : Kept producers ts session.typescript typescript) :
    Landed producers ts absolute changed nextGeneration { session with typescript } := by
  refine ⟨kept.1, fun epoch at_epoch => (landed.epoch epoch at_epoch).trans kept.2.epoch_le,
    landed.older, fun update graph keeps stamped facts index is_last generation attested producer
      running => ?_⟩
  have below := landed.epoch _ stamped
  rcases kept.2 with moved | ⟨same, graphs, still⟩
  · exact absurd below (not_le.mpr moved)
  · exact landed.last update (graphs.symm.trans graph) keeps (stamped.trans (congrArg some same)) facts
      index is_last generation attested producer (still producer running)

theorem Landed.faithful (landed : Landed producers ts absolute changed nextGeneration session)
    (generation : session.generation = nextGeneration) : Faithful producers ts session := by
  refine ⟨landed.usable, landed.epoch, fun facts is_last => ?_⟩
  have older := landed.older facts is_last
  rw [generation]
  exact ⟨older.le, fun same => absurd same older.ne⟩

theorem Faithful.landed (faithful : Faithful producers ts session)
    (next : session.generation + 1 = nextGeneration) {wire : List (WireChange S)}
    (usable : producers.usable typescript)
    (moved : Moved producers ts absolute wire session.typescript typescript) :
    Landed producers ts absolute (wire.map WireChange.path) nextGeneration
      { session with typescript } := by
  have later : ts.restartEpoch session.typescript ≤ ts.restartEpoch typescript :=
    moved.elim Nat.le_of_lt fun same => same.1.ge
  refine ⟨usable, fun epoch at_epoch => (faithful.epoch epoch at_epoch).trans later,
    fun facts is_last => next ▸ Nat.lt_succ_of_le (faithful.last facts is_last).1,
    fun update graph keeps stamped facts index is_last generation attested producer running => ?_⟩
  rcases moved with moved | ⟨same, advanced⟩
  · exact absurd (faithful.epoch _ stamped) (not_le.mpr moved)
  · obtain ⟨earlier, was, others⟩ := advanced producer running
    obtain ⟨distinct, full⟩ := (faithful.last facts is_last).2
      (Nat.succ_injective (generation.trans next.symm)) (stamped.trans (congrArg some same)) index
      attested earlier was
    refine ⟨distinct, earlier, full, fun path unlisted => others update graph keeps path ?_⟩
    intro change member equal
    refine unlisted (List.mem_map.mpr ⟨change.path, List.mem_map_of_mem member, equal⟩)

end

end NativeSession

end SolidChecker.Backend
