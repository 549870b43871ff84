/- source: apps/solid-typefacts/src/retained.rs, closure.rs -/

import Mathlib.Logic.Relation
import SolidChecker.Producer.Closure

namespace SolidChecker.Producer.DemandClosure

open Foundation Foundation.Act

variable {β H K F A C α δ : Type}

section

variable (backend : Backend β H K F A) (cells : EntityCells F) (codec : Codec K C)
  (groups : List (DemandGroup K C))

/-- The backend after it was asked, any number of times, whether the request is cancelled. -/
abbrev Polled : β → β → Prop :=
  Relation.ReflTransGen fun before after => after = (backend.cancelled before).2

inductive Answers (runs : List (Path × List (EntityDemand K))) (locations : List Location)
    (state : β) : Except String (List (Path × List (EntityFact F)) × List (Path × A)) → β → Prop
  | nothing (none : runs = []) : Answers runs locations state (.ok ([], [])) state
  | failed {error} (some : runs ≠ []) : Answers runs locations state (.error error)
      (backend.perFileDemandRuns runs locations state).2
  | rows {results entities facts} (some : runs ≠ [])
    (answered : (backend.perFileDemandRuns runs locations state).1 = .ok (results, facts))
    (rebuilt : rebuildContributions cells runs results = .ok entities) :
    Answers runs locations state (.ok (entities, facts))
      (backend.perFileDemandRuns runs locations state).2

inductive Reaches (state : β) : β → Prop
  | digests : Reaches state (backend.sourceDigests state).2
  | runs {runs locations outcome after} (prepared : prepareRuns codec groups = .ok (runs, locations))
    (answers : Answers backend cells runs locations (backend.sourceDigests state).2 outcome after) :
    Reaches state after
  | polled {before after} (reaches : Reaches state before) (polled : Polled backend before after) :
    Reaches state after

inductive Builds [DecidableEq H] (generation : ℕ) (closure : DemandClosure β H F A) :
    Except String (ProducerTable H (EntityFact F) A) → DemandClosure β H F A → Prop
  | failed {error after} (reaches : Reaches backend cells codec groups closure.backend after) :
    Builds generation closure (.error error) (closure.setBackend after)
  | published {sources runs locations entities facts answered state table after}
    (given : (backend.sourceDigests closure.backend).1 = .ok sources)
    (checked : checkDigests none sources = .ok ())
    (prepared : prepareRuns codec groups = .ok (runs, locations))
    (answers : Answers backend cells runs locations (backend.sourceDigests closure.backend).2
      (.ok (entities, facts)) answered) (polled : Polled backend answered state)
    (publishes : publish backend groups generation sources entities
      (sources.map fun source => (source.1, asyncFactsAt facts source.1))
      (closure.setBackend state) = (.ok table, after)) : Builds generation closure (.ok table) after

variable (closure : DemandClosure β H F A)

variable {closure} in
theorem ask_bind {question : Act β String α} {next : α → ClosureStep β H F A δ}
    {post : Except String δ → DemandClosure β H F A → Prop}
    (failed : ∀ error, post (.error error) (closure.setBackend (question closure.backend).2))
    (answered : ∀ answer, (question closure.backend).1 = .ok answer →
      Meets (· = closure.setBackend (question closure.backend).2) (next answer) post) :
    Meets (· = closure) (ask question >>= next) post := by
  refine .bind (fun outcome after => (question closure.backend).1 = outcome ∧
    after = closure.setBackend (question closure.backend).2) ?_ ?_ fun answer => ?_
  · rintro _ rfl
    exact ⟨rfl, rfl⟩
  · rintro error _ ⟨-, rfl⟩
    exact failed error
  · exact .pull (answered answer)

private theorem answerRuns_answers (runs : List (Path × List (EntityDemand K))) (locations : List Location) :
    Meets (· = closure) (answerRuns backend cells runs locations) fun outcome after =>
      ∃ state, after = closure.setBackend state ∧
        Answers backend cells runs locations closure.backend outcome state := by
  unfold answerRuns
  split
  · rename_i none
    exact .pure fun _ start => ⟨closure.backend, start, .nothing none⟩
  · rename_i some
    refine ask_bind (fun _ => ⟨_, rfl, .failed some⟩) fun ⟨results, facts⟩ answered => ?_
    refine .ofExcept_bind (fun _ _ _ same => ⟨_, same, .failed some⟩) fun entities rebuilt => ?_
    exact .pure fun _ same => ⟨_, same, .rows some answered rebuilt⟩

private theorem pushFileFacts_polls (facts : List (Path × A)) (sources : List (Path × H)) :
    Meets (· = closure) (pushFileFacts backend facts sources) fun outcome after =>
      ∃ state, after = closure.setBackend state ∧ Polled backend closure.backend state ∧
        ∀ files, outcome = .ok files →
          files = sources.map fun source => (source.1, asyncFactsAt facts source.1) := by
  induction sources generalizing closure with
  | nil =>
    exact .pure fun _ start => ⟨_, start, .refl, fun _ returned => (Except.ok.inj returned).symm⟩
  | cons source later ih =>
    let asked := closure.setBackend (backend.cancelled closure.backend).2
    refine .bind (fun _ after => after = asked) ?_ (fun _ _ same => ⟨_, same, .single rfl, nofun⟩)
      fun _ => ?_
    · refine ask_bind (fun _ => rfl) fun stopped _ => ?_
      split
      · exact .throw fun _ same => same
      · exact .pure fun _ same => same
    refine .bind _ (ih asked) ?_ fun files => .pure ?_
    · rintro _ _ ⟨state, same, polled, -⟩
      exact ⟨state, same, .head rfl polled, nofun⟩
    · rintro _ ⟨state, same, polled, pushed⟩
      refine ⟨state, same, .head rfl polled, fun others returned => ?_⟩
      cases returned
      rw [pushed files rfl, List.map_cons]

variable [DecidableEq H] (generation : ℕ)

private theorem materializeGroups_builds :
    Meets (· = closure) (materializeGroups backend codec cells groups generation)
      (Builds backend cells codec groups generation closure) := by
  let asked := closure.setBackend (backend.sourceDigests closure.backend).2
  refine .bind (fun outcome after => after = asked ∧ ∀ sources, outcome = .ok sources →
      (backend.sourceDigests closure.backend).1 = .ok sources ∧ checkDigests none sources = .ok ())
    ?_ (fun _ _ failed => failed.1 ▸ .failed .digests) fun sources => ?_
  · refine ask_bind (fun _ => ⟨rfl, nofun⟩) fun sources given => ?_
    refine .ofExcept_bind (fun _ _ _ same => ⟨same, nofun⟩) fun _ checked => ?_
    refine .pure fun _ same => ⟨same, fun others returned => ?_⟩
    cases returned
    exact ⟨given, checked⟩
  rintro _ ⟨rfl, found⟩
  obtain ⟨given, checked⟩ := found sources rfl
  refine (?_ : Meets (· = asked) _ (Builds backend cells codec groups generation closure)) asked rfl
  refine .ofExcept_bind (fun _ _ _ same => same ▸ .failed .digests) ?_
  rintro ⟨runs, locations⟩ prepared
  refine .bind _ (answerRuns_answers backend cells asked runs locations) ?_ ?_
  · rintro _ _ ⟨state, rfl, answers⟩
    exact .failed (.runs prepared answers)
  rintro ⟨entities, facts⟩ _ ⟨answered, rfl, answers⟩
  refine Meets.bind _ (pushFileFacts_polls backend (asked.setBackend answered) facts sources) ?_ ?_
    _ rfl
  · rintro _ _ ⟨state, rfl, polled, -⟩
    exact .failed (.polled (.runs prepared answers) polled)
  · rintro files _ ⟨state, rfl, polled, pushed⟩
    obtain rfl := pushed files rfl
    exact .published given checked prepared answers polled rfl

structure Anew (changedPaths : List Path) : Prop where
  current : closure.generation = generation
  absent : (closure.invalidate changedPaths).table = none
  once : namedTwice (Grouping.sortByKey DemandGroup.path groups) = none

def discarded (changedPaths : List Path) : DemandClosure β H F A :=
  (closure.invalidate changedPaths).setBackend (backend.discardDerivedState closure.backend)

inductive Demands (changedPaths : List Path) :
    Except String (ProducerTable H (EntityFact F) A) → DemandClosure β H F A → Prop
  | refused {error} : Demands changedPaths (.error error) closure
  | twice {error} : Demands changedPaths (.error error) (closure.invalidate changedPaths)
  | kept {table} (held : (closure.invalidate changedPaths).table = some table) :
    Demands changedPaths (.ok table) (closure.invalidate changedPaths)
  | failed {error after} (anew : Anew groups closure generation changedPaths)
    (builds : Builds backend cells codec (Grouping.sortByKey DemandGroup.path groups) generation
      (discarded backend closure changedPaths) (.error error) after) :
    Demands changedPaths (.error error) after
  | built {table after} (anew : Anew groups closure generation changedPaths)
    (builds : Builds backend cells codec (Grouping.sortByKey DemandGroup.path groups) generation
      (discarded backend closure changedPaths) (.ok table) after) :
    Demands changedPaths (.ok table) { after with table := some table }

variable (changedPaths : List Path)

omit [DecidableEq H] in
theorem invalidate_backend : (closure.invalidate changedPaths).backend = closure.backend := by
  unfold invalidate
  split <;> rfl

theorem demandTable_demands : Meets (· = closure)
    (demandTableForPreparedGroups backend codec cells generation groups changedPaths)
    (Demands backend cells codec groups closure generation changedPaths) := by
  let before := closure.invalidate changedPaths
  let sorted := Grouping.sortByKey DemandGroup.path groups
  let Done := Demands backend cells codec groups closure generation changedPaths
  let Ensured := fun (outcome : Except String PUnit) after =>
    (∀ error, outcome = .error error → Done (.error error) after) ∧
      (outcome = .ok ⟨⟩ → ∃ table, after.table = some table ∧ Done (.ok table) after)
  refine .read_bind fun current => ?_
  split
  · exact .throw fun _ start => start.1 ▸ .refused
  rename_i same
  rintro start ⟨begun, rfl⟩
  obtain rfl := begun.symm
  refine (?_ : Meets (· = before) (ensureTable backend codec cells generation groups >>= _) Done)
    before rfl
  refine .bind Ensured ?_ (fun error _ failed => failed.1 error rfl)
    fun _ => .read_bind fun table => ?_
  · refine .read_bind fun table => ?_
    cases table with
    | some table =>
      rintro _ ⟨rfl, held⟩
      exact ⟨nofun, fun _ => ⟨table, held, .kept held⟩⟩
    | none =>
      rintro _ ⟨rfl, absent⟩
      refine (?_ : Meets (· = before) (unlessTwice sorted
        (materializeDemandTable backend codec cells sorted generation)) Ensured) before rfl
      unfold unlessTwice
      split
      · exact .throw fun _ start => ⟨fun _ _ => start ▸ .twice, nofun⟩
      rename_i once
      have anew : Anew groups closure generation changedPaths := ⟨(not_not.mp same).symm, absent, once⟩
      refine .modify_bind (· = discarded backend closure changedPaths) (fun _ start => ?_) ?_
      · rw [start]
        exact congrArg (before.setBackend <| backend.discardDerivedState ·)
          (invalidate_backend closure changedPaths)
      refine .bind _ (materializeGroups_builds backend cells codec sorted _ generation)
        (fun _ _ failed => ⟨fun _ told => Except.error.inj told ▸ .failed anew failed, nofun⟩)
        fun table => ?_
      exact .modify fun _ builds => ⟨nofun, fun _ => ⟨table, rfl, .built anew builds⟩⟩
  · rintro after ⟨⟨-, found⟩, held⟩
    obtain ⟨table, present, done⟩ := found rfl
    obtain rfl := held.symm.trans present
    exact done

variable {backend cells codec groups closure generation changedPaths}

theorem demands_of_ok {table : ProducerTable H (EntityFact F) A}
    (returned : (demandTableForPreparedGroups backend codec cells generation groups changedPaths
      closure).1 = .ok table) :
    ∃ after, Demands backend cells codec groups closure generation changedPaths (.ok table) after :=
  ⟨_, returned ▸ demandTable_demands backend cells codec groups closure generation changedPaths
    closure rfl⟩

end

end SolidChecker.Producer.DemandClosure
