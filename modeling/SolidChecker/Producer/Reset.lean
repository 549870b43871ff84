/- source: apps/solid-typefacts/src/session.rs, closure.rs -/

import SolidChecker.Producer.Contents
import SolidChecker.Producer.HandOut
import SolidChecker.Producer.Released

namespace SolidChecker.Producer

open Foundation Foundation.Act

variable {β H K F A C Y G I Program : Type}

namespace Session

section

private def Answers (codec : Codec K C) (cells : EntityCells F) (sources : List (Path × H))
    (answer : List (Path × List (EntityDemand K)) → List Location →
      List (RunAnswer F) × List (Path × A)) (request : Request K C G)
    (table : ProducerTable H (EntityFact F) A) : Prop :=
  ∃ begun, request.resetTransaction codec = .ok begun ∧
    contentsOf codec cells sources answer
      (Grouping.sortByKey DemandGroup.path begun.groups) = .ok table.contents

variable {codec : Codec K C} {cells : EntityCells F} {sources : List (Path × H)}
  {answer : List (Path × List (EntityDemand K)) → List Location →
    List (RunAnswer F) × List (Path × A)} {request : Request K C G}

private theorem Answers.unique {left right : ProducerTable H (EntityFact F) A}
    (leftAnswers : Answers codec cells sources answer request left)
    (rightAnswers : Answers codec cells sources answer request right) : left.rows = right.rows := by
  obtain ⟨begun, begins, contents⟩ := leftAnswers
  obtain ⟨again, repeats, others⟩ := rightAnswers
  cases begins.symm.trans repeats
  exact ProducerTable.rows_of_contents (Except.ok.inj (contents.symm.trans others))

variable {table : ProducerTable H (EntityFact F) A}

private theorem Answers.unnamed (answered : Answers codec cells sources answer request table)
    (nothing : request.namesPath = false) :
    table.contents = ⟨sources, [], sources.map fun source => (source.1, [])⟩ := by
  obtain ⟨begun, begins, contents⟩ := answered
  rw [resetTransaction_groups begins nothing, (Grouping.sortByKey_eq_nil _).mpr rfl] at contents
  exact (Except.ok.inj contents).symm

variable [DecidableEq H] [DecidableEq F] [DecidableEq A] {program : β → Program}
  {digests : Program → List (Path × H)}
  {answers : Program → List (Path × List (EntityDemand K)) → List Location →
    List (RunAnswer F) × List (Path × A)}

section

variable {host : Host β H K F A Y G I} {session : Session β H K F A C}
  {response : Response H F A Y I}
  (answered : (lifecycle host codec cells request session).1 = .ok response)
  (analysis : request.operation = .analyze) (reset : request.resetState)
include answered analysis reset

private theorem lifecycle_answers (determined : host.toBackend.Determined program digests answers)
    (builds : request.namesPath ∨ session.closure.table = none) :
    HandsOut (Answers codec cells (digests (program session.closure.backend))
      (answers (program session.closure.backend)) request) response.transition := by
  refine lifecycle_reset codec host cells reset session.closure analysis ?_ session rfl response
    answered
  intro begun begins single
  refine (DemandClosure.demandTable_built determined codec cells _ begun.groups begun.changedPaths
    (program session.closure.backend)).weaken ?_ fun table _ contents => ⟨begun, begins, contents⟩
  rintro closure rfl
  refine ⟨rfl, builds.imp_left fun named empty => ?_⟩
  rw [(resetTransaction_changedPaths begins single).mp empty] at named
  exact nomatch named

private theorem lifecycle_keeps (nothing : request.namesPath = false)
    (kept : session.closure.table = some table) :
    HandsOut (fun handed => handed = table) response.transition := by
  refine lifecycle_reset codec host cells reset session.closure analysis ?_ session rfl response
    answered
  intro begun begins single
  rw [(resetTransaction_changedPaths begins single).mpr nothing]
  refine (DemandClosure.demandTable_kept codec cells _ begun.groups table).weaken ?_
    fun _ _ same => same
  rintro closure rfl
  exact kept

end

/-- In every run, an accepted analysis that resets the demand set hands out a full table. Its rows
are those a new session over the program hands out exactly if the request names a path, or no
table is kept, or the program has no source. -/
theorem reset_answers_as_new (host : Host β H K F A Y G I) (codec : Codec K C)
    (cells : EntityCells F) (determined : host.toBackend.Determined program digests answers)
    (backend : β) (projectId : Path) (inlineSources : Bool) (opened : Session β H K F A C)
    (created : new backend projectId inlineSources = .ok opened) (history : List (Request K C G))
    (request : Request K C G) (analysis : request.operation = .analyze)
    (reset : request.resetState = true) (response : Response H F A Y I)
    (answered : (lifecycle host codec cells request
      (run host codec cells opened history)).1 = .ok response)
    (other : β) (otherInline : Bool) (fresh : Session β H K F A C)
    (renewed : new other projectId otherInline = .ok fresh)
    (same : program other = program (run host codec cells opened history).closure.backend)
    (freshResponse : Response H F A Y I)
    (freshly : (lifecycle host codec cells { request with generation := 1 } fresh).1 =
      .ok freshResponse) :
    ∃ transition freshTransition, response.transition = some transition ∧
      transition.mode = .full ∧ freshResponse.transition = some freshTransition ∧
      freshTransition.mode = .full ∧
      (transition.materialize = freshTransition.materialize ↔ request.namesPath = true ∨
        (run host codec cells opened history).closure.table = none ∨
        digests (program (run host codec cells opened history).closure.backend) = []) := by
  have empty : opened.closure.table = none ∧ fresh.closure.table = none ∧
      fresh.closure.backend = other := by
    unfold new at created renewed
    split at created
    · exact nomatch created
    split at renewed
    · exact nomatch renewed
    cases created
    cases renewed
    exact ⟨rfl, rfl, rfl⟩
  obtain ⟨unbuilt, renewedTable, rfl⟩ := empty
  have released := run_released host codec cells history opened fun table kept => by
    rw [unbuilt] at kept
    exact nomatch kept
  obtain ⟨freshTable, freshTransition, freshAnswers, freshSent, freshFull, freshRows⟩ :=
    lifecycle_answers freshly analysis reset determined (.inr renewedTable)
  replace freshAnswers : Answers codec cells _ _ request freshTable := freshAnswers
  rw [same] at freshAnswers
  generalize run host codec cells opened history = session at *
  by_cases builds : request.namesPath ∨ session.closure.table = none
  · obtain ⟨table, transition, tableAnswers, sent, full, rows⟩ :=
      lifecycle_answers answered analysis reset determined builds
    refine ⟨transition, freshTransition, sent, full, freshSent, freshFull, ?_⟩
    rw [rows, freshRows, ← or_assoc]
    exact iff_of_true (tableAnswers.unique freshAnswers) (.inl builds)
  · obtain ⟨unnamed, present⟩ := not_or.mp builds
    rw [Bool.not_eq_true] at unnamed
    obtain ⟨kept, keeps⟩ := Option.ne_none_iff_exists'.mp present
    obtain ⟨table, transition, rfl, sent, full, rows⟩ :=
      lifecycle_keeps answered analysis reset unnamed keeps
    refine ⟨transition, freshTransition, sent, full, freshSent, freshFull, ?_⟩
    have nothing : table.rows = fun _ => .empty := by
      rw [← released table keeps]
      rfl
    have contents := Answers.unnamed freshAnswers unnamed
    rw [rows, freshRows, nothing, unnamed, keeps]
    simp only [Bool.false_eq_true, reduceCtorEq, false_or]
    generalize digests (program session.closure.backend) = sources at contents
    cases sources with
    | nil =>
      refine iff_of_true ?_ rfl
      have bare : freshTable.rows = freshTable.released.rows := ProducerTable.rows_of_contents contents
      rw [bare]
      rfl
    | cons source later =>
      refine iff_of_false (fun equal => ?_) nofun
      have found : (freshTable.rows source.1).source = some source.2 := by
        show rowAt freshTable.sources source.1 = some source.2
        rw [show freshTable.sources = source :: later from congrArg Contents.sources contents]
        exact rowAt_head source later
      rw [← equal] at found
      exact nomatch found

end

namespace OneSource

def host : Host Unit ℕ Unit Unit Unit Unit Unit Unit where
  cancelled state := (false, state)
  sourceDigests state := (.ok [(['a'], 0)], state)
  update _ state := (.ok ⟨[], true⟩, state)
  discardDerivedState state := state
  perFileDemandRuns runs _ state := (.ok (runs.map fun _ => .rows [], []), state)
  tracksContentVersions _ := false
  contentVersion _ _ := none
  strictNullChecks state := (.ok none, state)
  symbolEvidence _ state := (.ok [], state)
  changedReferences state := (.ok ([], false), state)
  releaseAnalysisState state := state
  sourceFiles state := (.ok [], state)
  writeSourceArena _ state := (.ok "", state)
  moduleGraph _ state := (.ok (), state)
  close state := (.ok ⟨⟩, state)
  removeSourceArena state := (.ok ⟨⟩, state)
  write _ state := (.ok ⟨⟩, state)
  writeEvidence _ _ state := (.ok ⟨⟩, state)

def Determined : Prop :=
  host.toBackend.Determined (fun _ => ()) (fun _ => [(['a'], 0)])
    (fun _ runs _ => (runs.map fun _ => .rows [], []))

private theorem determined : Determined where
  discarding _ := rfl
  reading _ := rfl
  sources _ _ answered := (Except.ok.inj answered).symm
  runs _ _ _ _ answered := (Except.ok.inj answered).symm

def codec : Codec Unit Unit := ⟨fun _ => .ok (), fun _ _ => .ok [], fun _ _ => .ok []⟩

def cells : EntityCells Unit := ⟨(), fun _ _ => ()⟩

def resetTo (demands : List (EntityDemand Unit)) : Request Unit Unit Unit :=
  ⟨1, 1, ['p'], 1, .analyze, none, [], demands, none, [], true, "", [], false, false, [], ()⟩

def opened : Session Unit ℕ Unit Unit Unit Unit :=
  ⟨DemandClosure.new (), ['p'], 0, "", [], none, false, none, true⟩

def answer (history : List (Request Unit Unit Unit)) (request : Request Unit Unit Unit) :
    Except Refusal (Response ℕ Unit Unit Unit Unit) :=
  (lifecycle host codec cells request (run host codec cells opened history)).1

def handed (outcome : Except Refusal (Response ℕ Unit Unit Unit Unit)) :
    Option (TransitionMode × Option ℕ) :=
  (outcome.toOption.bind Response.transition).map fun transition =>
    (transition.mode, (transition.materialize ['a']).source)

private theorem handed_eq_some {outcome : Except Refusal (Response ℕ Unit Unit Unit Unit)}
    {mode : TransitionMode} {digest : Option ℕ} (shown : handed outcome = some (mode, digest)) :
    ∃ response transition, outcome = .ok response ∧ response.transition = some transition ∧
      transition.mode = mode ∧ (transition.materialize ['a']).source = digest := by
  obtain ⟨transition, found, same⟩ := Option.map_eq_some_iff.mp shown
  obtain ⟨response, ok, sent⟩ := Option.bind_eq_some_iff.mp found
  cases same
  cases outcome with
  | error refusal => exact nomatch ok
  | ok given =>
    obtain rfl := Option.some.inj ok
    exact ⟨given, transition, rfl, sent, rfl, rfl⟩

end OneSource

open OneSource in
/-- After an empty reset, one that names a path answers what a new session answers. -/
theorem reset_answers_as_new_again :
    ∃ transition freshTransition : Transition ℕ (EntityFact Unit) Unit,
      transition.mode = .full ∧ freshTransition.mode = .full ∧
        transition.materialize = freshTransition.materialize := by
  let demand : EntityDemand Unit := ⟨⟨['a'], 0, 1⟩, none, false, ()⟩
  have later : handed (answer [resetTo []] (resetTo [demand])) = some (.full, some 0) := by
    decide +kernel
  have first : handed (answer [] (resetTo [demand])) = some (.full, some 0) := by decide +kernel
  obtain ⟨response, -, answered, -⟩ := handed_eq_some later
  obtain ⟨freshResponse, -, freshly, -⟩ := handed_eq_some first
  obtain ⟨transition, freshTransition, -, full, -, freshFull, same⟩ :=
    reset_answers_as_new host codec cells determined () ['p'] true opened rfl [resetTo []]
      (resetTo [demand]) rfl rfl response answered () true opened rfl rfl freshResponse freshly
  exact ⟨transition, freshTransition, full, freshFull, same.mpr (.inl rfl)⟩

open OneSource in
/-- A second empty reset in a generation hands out no source, where a new session hands out one. -/
theorem reset_serves_released : Determined ∧ new () ['p'] true = .ok opened ∧
    ∃ response freshResponse transition freshTransition,
      answer [resetTo []] (resetTo []) = .ok response ∧ response.transition = some transition ∧
      answer [] (resetTo []) = .ok freshResponse ∧
      freshResponse.transition = some freshTransition ∧ transition.mode = .full ∧
      transition.materialize ≠ freshTransition.materialize := by
  have second : handed (answer [resetTo []] (resetTo [])) = some (.full, none) := by
    decide +kernel
  have first : handed (answer [] (resetTo [])) = some (.full, some 0) := by decide +kernel
  obtain ⟨response, transition, answered, sent, full, released⟩ := handed_eq_some second
  obtain ⟨freshResponse, freshTransition, freshly, freshSent, -, present⟩ := handed_eq_some first
  refine ⟨determined, rfl, response, freshResponse, transition, freshTransition, answered, sent,
    freshly, freshSent, full, fun same => ?_⟩
  rw [same, present] at released
  exact nomatch released

end Session

end SolidChecker.Producer
