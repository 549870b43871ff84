/- source: apps/solid-typefacts/src/session.rs, closure.rs -/

import SolidChecker.Producer.Session

namespace SolidChecker.Producer

open Foundation Foundation.Act

variable {β H K F A C Y G I : Type}

namespace DemandClosure

variable (closure : DemandClosure β H F A)

def Released : Prop :=
  ∀ table, closure.table = some table → table.released = table

private theorem released_reset : closure.resetAnalysisState.Released := fun _ kept => nomatch kept

private theorem released_release : closure.releaseTransportRows.Released := by
  intro table kept
  obtain ⟨before, -, rfl⟩ := Option.map_eq_some_iff.mp kept
  rfl

private theorem ask_released {α : Type} (question : Act β String α) :
    Stays Released (ask question : ClosureStep β H F A α) := fun _ released => released

private theorem update_released (backend : Backend β H K F A) (changes : List FileChange) :
    Stays Released (update backend changes : ClosureStep β H F A _) := by
  refine .bind (ask_released _) fun outcome => ?_
  refine .modify_bind (fun _ => True) (fun _ _ => trivial) ?_
  refine .modify_bind Released (fun _ _ _ kept => nomatch kept) ?_
  exact Stays.pure _

private theorem populateSymbolEvidence_released (host : Host β H K F A Y G I)
    (request : Request K C G) (response : Response H F A Y I) :
    Stays Released (populateSymbolEvidence host request response) := by
  have resolved : ∀ queries, Stays Released
      (resolveSymbolEvidence host queries : ClosureStep β H F A _) := fun queries => ask_released _
  refine .bind (resolved _) fun evidence => ?_
  refine .bind ?_ fun carried => .bind ?_ fun given => .bind ?_ fun _ => .pure _
  · unfold carryEvidence
    split
    · exact .bind (.catching (ask_released _) fun _ => .throw _) fun _ => .pure _
    · exact .pure _
  · unfold carryReferences
    split
    · refine .bind (ask_released _) fun changed => ?_
      dsimp only
      split
      · exact .bind (resolved _) fun _ => .pure _
      · exact .pure _
    · exact .pure _
  · unfold releaseAnalysis
    split
    · exact .modify fun _ released => released
    · exact .pure _

end DemandClosure

namespace Session

section

private abbrev KeptReleased (session : Session β H K F A C) : Prop := session.closure.Released

variable {α : Type}

private theorem attempt_released {step : ClosureStep β H F A α}
    (keeps : Stays DemandClosure.Released step) :
    Stays KeptReleased (attempt step : SessionStep β H K F A C _) :=
  fun session released => keeps session.closure released

variable (host : Host β H K F A Y G I)

private theorem checkCancelled_released :
    Stays KeptReleased (checkCancelled host : SessionStep β H K F A C _) := by
  refine .bind (fun _ released => released) fun cancelled => ?_
  split
  · exact .throw _
  · exact .pure _

private theorem unlessCancelled_released (code : ErrorCode)
    {step : ClosureStep β H F A α} (keeps : Stays DemandClosure.Released step) :
    Stays KeptReleased (unlessCancelled host code step : SessionStep β H K F A C _) := by
  refine .bind (attempt_released keeps) fun outcome => ?_
  cases outcome with
  | ok value => exact .pure _
  | error text =>
    exact .bind (checkCancelled_released host) fun _ => .throw _

private theorem orRefuse_released (code : ErrorCode)
    {step : SessionStep β H K F A C (Except String α)}
    (keeps : Stays KeptReleased step) : Stays KeptReleased (orRefuse code step) := by
  refine .bind keeps fun outcome => ?_
  cases outcome with
  | ok value => exact .pure _
  | error text => exact .throw _

private theorem sources_released (response : Response H F A Y I) :
    Stays KeptReleased (sources host response : SessionStep β H K F A C _) := by
  refine .bind (.read _) fun inlineSources => ?_
  refine .bind (orRefuse_released _ (attempt_released (DemandClosure.ask_released _)))
    fun files => ?_
  split
  · exact .pure _
  · exact .bind (orRefuse_released _ (attempt_released (DemandClosure.ask_released _)))
      fun _ => .pure _

private theorem close_released : Stays KeptReleased (close host : SessionStep β H K F A C _) := by
  refine .modify_bind KeptReleased (fun _ _ => DemandClosure.released_reset _) ?_
  refine Stays.bind (attempt_released (DemandClosure.ask_released _)) fun backend => ?_
  refine .bind (attempt_released (DemandClosure.ask_released _)) fun arena => ?_
  dsimp only
  split
  · exact .pure _
  · exact .bind (.modify fun _ released => released) fun _ => .throw _

variable [DecidableEq H] [DecidableEq F] [DecidableEq A] (codec : Codec K C) (cells : EntityCells F)
  (request : Request K C G)

private theorem analyze_released : Stays KeptReleased (analyze host codec cells request) := by
  refine .bind ?_ fun transaction => ?_
  · refine .bind (.read _) fun groups => ?_
    split
    · split
      · exact .pure _
      · exact .throw _
    · exact .pure _
  refine .modify_bind (fun _ => True) (fun _ _ => trivial) ?_
  refine .bind (fun outcome session => ∀ refusal, outcome = .error refusal →
    KeptReleased session) ?_ (fun refusal _ released => released refusal rfl) fun handed => ?_
  · refine .catching (fun _ _ => True) (fun _ _ => trivial)
      (fun _ _ _ _ same => nomatch same) fun refusal => ?_
    refine .modify_bind KeptReleased (fun _ _ => DemandClosure.released_reset _) ?_
    exact .throw fun _ released _ _ => released
  · refine .modify_bind KeptReleased (fun _ _ => DemandClosure.released_release _) ?_
    exact Stays.pure _

private theorem serve_released : Stays KeptReleased (serve host codec cells request) := by
  have expected : ∀ generation, Stays KeptReleased (expectGeneration request generation : SessionStep β H K F A C _) := by
    intro generation
    unfold expectGeneration
    split
    · exact .throw _
    · exact .pure _
  refine .bind (.read _) fun session => ?_
  split
  · exact .bind (expected _) fun _ => .pure _
  · refine .bind (expected _) fun _ => .bind
      (orRefuse_released _ (attempt_released (DemandClosure.update_released _ _))) fun outcome => ?_
    exact .bind (.read _) fun _ => .pure _
  · refine .bind (expected _) fun _ => ?_
    split
    · exact .throw _
    split
    · exact .throw _
    split
    · exact .bind
        (orRefuse_released _ (attempt_released (DemandClosure.ask_released _))) fun _ => .pure _
    · exact analyze_released host codec cells request
  · refine .bind (expected _) fun _ => ?_
    split
    · exact .throw _
    · exact unlessCancelled_released host _
        (DemandClosure.populateSymbolEvidence_released host request _)
  · exact .bind (expected _) fun _ => sources_released host _
  · exact .bind (expected _) fun _ => .bind
      (unlessCancelled_released host _ (DemandClosure.ask_released _)) fun _ => .pure _
  · exact .pure _
  · exact .bind (expected _) fun _ => .bind (close_released host) fun _ => .pure _

private theorem lifecycle_released :
    Stays (fun session => session.closure.Released) (lifecycle host codec cells request) := by
  refine .bind (.ofExcept _) fun _ => ?_
  refine .bind (.read _) fun session => ?_
  split
  · exact .throw _
  split
  · split
    · exact .pure _
    · exact .throw _
  · exact serve_released host codec cells request

theorem run_released (requests : List (Request K C G)) (session : Session β H K F A C)
    (released : session.closure.Released) :
    (run host codec cells session requests).closure.Released := by
  induction requests generalizing session with
  | nil => exact released
  | cons request later ih =>
    exact ih _ (lifecycle_released host codec cells request session released)

end

end Session

end SolidChecker.Producer
