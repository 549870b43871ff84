/- source: apps/solid-typefacts/src/closure.rs, retained.rs -/

import SolidChecker.Producer.Build

namespace SolidChecker.Producer

open Foundation Foundation.Act

variable {β H K F A C Program : Type}

structure Backend.Determined (backend : Backend β H K F A) (program : β → Program)
    (digests : Program → List (Path × H))
    (answers : Program → List (Path × List (EntityDemand K)) → List Location →
      List (RunAnswer F) × List (Path × A)) : Prop where
  discarding : ∀ state, program (backend.discardDerivedState state) = program state
  reading : ∀ state, program (backend.sourceDigests state).2 = program state
  sources : ∀ state sources, (backend.sourceDigests state).1 = .ok sources →
    sources = digests (program state)
  runs : ∀ runs locations state answer,
    (backend.perFileDemandRuns runs locations state).1 = .ok answer →
    answer = answers (program state) runs locations

structure Contents (H F A : Type) where
  sources : List (Path × H)
  entities : List (Path × List (EntityFact F))
  files : List (Path × List A)

def ProducerTable.contents (table : ProducerTable H (EntityFact F) A) : Contents H F A :=
  ⟨table.sources, table.entities, table.files⟩

theorem ProducerTable.rows_of_contents {left right : ProducerTable H (EntityFact F) A}
    (same : left.contents = right.contents) : left.rows = right.rows := by
  obtain ⟨sources, entities, files⟩ := Contents.mk.inj same
  funext path
  simp only [ProducerTable.rows, PathRows.ofTable, sources, entities, files]

def runRows (cells : EntityCells F)
    (answer : List (Path × List (EntityDemand K)) → List Location →
      List (RunAnswer F) × List (Path × A))
    (runs : List (Path × List (EntityDemand K))) (locations : List Location) :
    Except String (List (Path × List (EntityFact F)) × List (Path × A)) :=
  if runs = [] then .ok ([], [])
  else (rebuildContributions cells runs (answer runs locations).1).map fun entities =>
    (entities, (answer runs locations).2)

def contentsOf (codec : Codec K C) (cells : EntityCells F) (sources : List (Path × H))
    (answer : List (Path × List (EntityDemand K)) → List Location →
      List (RunAnswer F) × List (Path × A)) (groups : List (DemandGroup K C)) :
    Except String (Contents H F A) := do
  let (runs, locations) ← DemandClosure.prepareRuns codec groups
  let (entities, facts) ← runRows cells answer runs locations
  pure ⟨sources, entities.filter fun run => decide (run.2 ≠ []),
    sources.map fun source => (source.1, asyncFactsAt facts source.1)⟩

namespace DemandClosure

section

variable {backend : Backend β H K F A} {program : β → Program} {digests : Program → List (Path × H)}
  {answers : Program → List (Path × List (EntityDemand K)) → List Location →
    List (RunAnswer F) × List (Path × A)}

private theorem Builds.contents [DecidableEq H]
    (determined : backend.Determined program digests answers) {codec : Codec K C}
    {cells : EntityCells F} {groups : List (DemandGroup K C)} {generation : ℕ}
    {closure after : DemandClosure β H F A} {table : ProducerTable H (EntityFact F) A}
    (builds : Builds backend cells codec groups generation closure (.ok table) after) :
    contentsOf codec cells (digests (program closure.backend)) (answers (program closure.backend))
      groups = .ok table.contents := by
  cases builds with
  | @published sources runs locations entities facts _ _ _ _ given checked prepared answered _ publishes =>
    cases congrArg Prod.fst publishes
    have rows : runRows cells (answers (program closure.backend)) runs locations =
        .ok (entities, facts) := by
      unfold runRows
      cases answered with
      | nothing none => rw [if_pos none]
      | rows some answered rebuilt =>
        have same := determined.runs _ _ _ _ answered
        rw [determined.reading] at same
        rw [if_neg some, ← same, rebuilt]
        rfl
    unfold contentsOf
    rw [← determined.sources _ _ given, prepared]
    show (runRows cells _ runs locations >>= _) = _
    rw [rows]
    rfl

theorem demandTable_built [DecidableEq H]
    (determined : backend.Determined program digests answers) (codec : Codec K C)
    (cells : EntityCells F) (generation : ℕ) (groups : List (DemandGroup K C))
    (changedPaths : List Path) (current : Program) : Yields (fun closure =>
        program closure.backend = current ∧ (changedPaths ≠ [] ∨ closure.table = none))
      (demandTableForPreparedGroups backend codec cells generation groups changedPaths)
      fun table _ => contentsOf codec cells (digests current) (answers current)
        (Grouping.sortByKey DemandGroup.path groups) = .ok table.contents := by
  rintro closure ⟨rfl, anew⟩ table returned
  obtain ⟨after, demands⟩ := demands_of_ok returned
  cases demands with
  | kept held =>
    unfold invalidate at held
    split at held
    · rename_i none
      exact nomatch held.symm.trans (anew.resolve_left (absurd none))
    · exact nomatch held
  | built _ builds =>
    rw [← determined.discarding]
    exact builds.contents determined

theorem demandTable_kept [DecidableEq H] (codec : Codec K C) (cells : EntityCells F)
    (generation : ℕ) (groups : List (DemandGroup K C)) (kept : ProducerTable H (EntityFact F) A) :
    Yields (fun closure => closure.table = some kept)
      (demandTableForPreparedGroups backend codec cells generation groups [])
      fun table _ => table = kept := by
  intro closure present table returned
  obtain ⟨after, demands⟩ := demands_of_ok returned
  cases demands with
  | kept held => exact Option.some.inj (held.symm.trans present)
  | built anew _ => exact nomatch anew.absent.symm.trans present

end

end DemandClosure

end SolidChecker.Producer
