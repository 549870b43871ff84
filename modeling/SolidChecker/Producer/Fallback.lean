/- source: apps/solid-typefacts/src/retained.rs, closure.rs -/

import SolidChecker.Producer.Manifest

namespace SolidChecker.Producer

open Foundation Foundation.Act List

variable {β H K F A C : Type}

/-- The backend's program is seen through its digests, and only an update that succeeds changes
it. -/
structure Backend.Reads (backend : Backend β H K F A) (digests : β → List (Path × H)) : Prop where
  cancelled : ∀ state, digests (backend.cancelled state).2 = digests state
  discarding : ∀ state, digests (backend.discardDerivedState state) = digests state
  reading : ∀ state, digests (backend.sourceDigests state).2 = digests state
  sources : ∀ state sources, (backend.sourceDigests state).1 = .ok sources → sources = digests state
  answering : ∀ runs locations state,
    digests (backend.perFileDemandRuns runs locations state).2 = digests state
  failing : ∀ changes state error, (backend.update changes state).1 = .error error →
    digests (backend.update changes state).2 = digests state

structure Backend.Keeps (backend : Backend β H K F A) (kept : β → Prop) : Prop where
  cancelled : ∀ state, kept state → kept (backend.cancelled state).2
  discarding : ∀ state, kept state → kept (backend.discardDerivedState state)
  reading : ∀ state, kept state → kept (backend.sourceDigests state).2
  answering : ∀ runs locations state, kept state →
    kept (backend.perFileDemandRuns runs locations state).2

private theorem Backend.Reads.keeps {backend : Backend β H K F A} {digests : β → List (Path × H)}
    (reads : backend.Reads digests) (rows : List (Path × H)) :
    backend.Keeps fun state => digests state = rows :=
  ⟨fun state => (reads.cancelled state).trans, fun state => (reads.discarding state).trans,
    fun state => (reads.reading state).trans,
    fun runs locations state => (reads.answering runs locations state).trans⟩

/-- A table has entity rows and async facts at demanded paths only, and clean paths. -/
structure RowsAt (demanded : List Path) (table : ProducerTable H (EntityFact F) A) : Prop where
  entities : ∀ path ∉ demanded, rowAt table.entities path = none
  files : ∀ path ∉ demanded, rowAt table.files path = (rowAt table.sources path).map fun _ => []
  sources : ∀ path, rowAt table.sources path ≠ none → path.clean = path
  clean : ∀ path ∈ demanded, path.clean = path

variable {path : Path}

private theorem RowsAt.rows_eq {before after : List Path} {old new : ProducerTable H (EntityFact F) A}
    (oldRows : RowsAt before old) (newRows : RowsAt after new)
    (same : rowAt new.sources path = rowAt old.sources path) (inBefore : path ∉ before)
    (inAfter : path ∉ after) : new.rows path = old.rows path := by
  unfold ProducerTable.rows PathRows.ofTable
  rw [oldRows.entities path inBefore, newRows.entities path inAfter, oldRows.files path inBefore,
    newRows.files path inAfter, same]

private theorem rowAt_of_notMem {V : Type} {rows : List (Path × V)}
    (absent : path ∉ rows.map Prod.fst) : rowAt rows path = none := by
  cases found : rowAt rows path with
  | none => rfl
  | some value => exact absurd (mem_map_of_mem (mem_of_rowAt found)) absent

variable {entities : List (Path × List (EntityFact F))} {facts : List (Path × A)}

private theorem rowsAt_of_answer {sources : List (Path × H)} {demanded : List Path}
    (paths : entities.map Prod.fst ⊆ demanded) (inside : ∀ fact ∈ facts, fact.1.clean ∈ demanded)
    (source_clean : ∀ source ∈ sources, source.1.clean = source.1)
    (ordered : sources.Pairwise fun left right => left.1 < right.1)
    (demanded_clean : ∀ path ∈ demanded, path.clean = path) (generation stateId : ℕ)
    (transport : Option TransportChanges) : RowsAt demanded ⟨generation, stateId, sources,
      entities.filter fun run => run.2 ≠ [],
      sources.map fun source => (source.1, asyncFactsAt facts source.1), transport⟩ := by
  refine ⟨fun path outside => ?_, fun path outside => ?_, fun path held => ?_, demanded_clean⟩
  · refine rowAt_of_notMem fun member => outside ?_
    obtain ⟨run, kept, rfl⟩ := mem_map.mp member
    exact paths (mem_map_of_mem (mem_of_mem_filter kept))
  · have none : asyncFactsAt facts path = [] := by
      unfold asyncFactsAt
      rw [map_eq_nil_iff, filter_eq_nil_iff]
      intro fact member here
      exact outside (of_decide_eq_true here ▸ inside fact member)
    refine (rowAt_map ordered (fun path _ => asyncFactsAt facts path) path).trans ?_
    rw [none]
  · obtain ⟨value, found⟩ := Option.ne_none_iff_exists'.mp held
    exact source_clean _ (mem_of_rowAt found)

variable {runs : List (Path × List (EntityDemand K))} {cells : EntityCells F}

private theorem rebuildContributions_paths {results : List (RunAnswer F)}
    (rebuilt : rebuildContributions cells runs results = .ok entities) :
    entities.map Prod.fst = runs.map Prod.fst := by
  unfold rebuildContributions at rebuilt
  split at rebuilt
  · exact nomatch rebuilt
  · rename_i sized
    have each : ∀ (entry : (Path × List (EntityDemand K)) × RunAnswer F)
        (result : Path × List (EntityFact F)),
        (entry.2.intoRows cells entry.1.1 entry.1.2).map (fun rows => (entry.1.1, rows)) =
          .ok result → result.1 = entry.1.1 := by
      intro entry result made
      cases rows : entry.2.intoRows cells entry.1.1 entry.1.2 with
      | error error =>
        rw [rows] at made
        exact nomatch made
      | ok rows' =>
        rw [rows] at made
        cases made
        rfl
    rw [Grouping.mapM_map each rebuilt]
    have zipped : ((runs.zip results).map Prod.fst).map Prod.fst = runs.map Prod.fst := by
      rw [map_fst_zip (Nat.le_of_eq (not_not.mp sized).symm)]
    rw [← zipped, map_map]
    rfl

namespace DemandClosure

section

variable {backend : Backend β H K F A} {digests : β → List (Path × H)}
  (reads : backend.Reads digests) {closure after : DemandClosure β H F A}
  {codec : Codec K C} {groups : List (DemandGroup K C)}

def FactsInside (backend : Backend β H K F A) (runs : List (Path × List (EntityDemand K)))
    (locations : List Location) (state : β) : Prop :=
  runs ≠ [] → ∀ answer, (backend.perFileDemandRuns runs locations state).1 = .ok answer →
    ∀ fact ∈ answer.2, fact.1.clean ∈ runs.map Prod.fst

private theorem Answers.inside {locations : List Location} {state answered : β}
    (answers : Answers backend cells runs locations state (.ok (entities, facts)) answered)
    (inside : FactsInside backend runs locations state) :
    entities.map Prod.fst ⊆ runs.map Prod.fst ∧ ∀ fact ∈ facts, fact.1.clean ∈ runs.map Prod.fst := by
  cases answers with
  | nothing none => exact ⟨nil_subset _, nofun⟩
  | rows some answered rebuilt =>
    exact ⟨fun path member => rebuildContributions_paths rebuilt ▸ member, inside some _ answered⟩

variable [DecidableEq H] in
/-- A table was built with the digests of the program and rows at the demanded paths; without versions
its manifest names the noted and the demanded paths. -/
structure Issued (digests : β → List (Path × H)) (closure : DemandClosure β H F A)
    (demanded : List Path) (table : ProducerTable H (EntityFact F) A)
    (after : DemandClosure β H F A) : Prop where
  numbered : table.stateId = closure.nextTableStateId + 1
  next : after.nextTableStateId = closure.nextTableStateId + 1
  program : digests after.backend = digests closure.backend
  sources : table.sources = digests closure.backend
  rows : RowsAt demanded table
  previous : after.previousTable = none
  manifest : closure.exactPaths (after.pathVersions.map Prod.snd) = none → table.transport =
    rustOwnedTransportManifest closure.previousTable
      (closure.transportChangedPaths.getD ∅ ∪ demanded.toFinset)

private theorem Reaches.keeps {kept : β → Prop} (keeps : backend.Keeps kept) {state reached : β}
    (reaches : Reaches backend cells codec groups state reached) (held : kept state) :
    kept reached := by
  induction reaches with
  | digests => exact keeps.reading state held
  | runs prepared answers =>
    cases answers with
    | nothing none => exact keeps.reading state held
    | failed some => exact keeps.answering _ _ _ (keeps.reading state held)
    | rows some answered rebuilt => exact keeps.answering _ _ _ (keeps.reading state held)
  | polled _ polled ih =>
    induction polled with
    | refl => exact ih
    | tail _ poll still =>
      rw [poll]
      exact keeps.cancelled _ still

variable [DecidableEq H]

private theorem Builds.reaches {generation : ℕ} {table : ProducerTable H (EntityFact F) A}
    (builds : Builds backend cells codec groups generation closure (.ok table) after) :
    Reaches backend cells codec groups closure.backend after.backend := by
  cases builds with
  | published given checked prepared answers polled published =>
    obtain ⟨-, rfl⟩ := Prod.mk.inj published
    exact .polled (.runs prepared answers) polled

include reads

private theorem Builds.issued {generation : ℕ} {table : ProducerTable H (EntityFact F) A}
    (builds : Builds backend cells codec groups generation closure (.ok table) after)
    (group_clean : ∀ group ∈ groups, group.path.clean = group.path)
    (inside : ∀ runs locations, prepareRuns codec groups = .ok (runs, locations) →
      FactsInside backend runs locations (backend.sourceDigests closure.backend).2) :
    Issued digests closure (groups.map DemandGroup.path) table after := by
  have reaches := builds.reaches
  cases builds with
  | @published sources runs locations entities facts _ state _ _ given checked prepared answers polled
      published =>
    obtain ⟨made, rfl⟩ := Prod.mk.inj published
    cases made
    obtain ⟨held, facts_inside⟩ := answers.inside (inside runs locations prepared)
    rw [prepareRuns_paths prepared] at held facts_inside
    obtain ⟨source_clean, ordered⟩ := checkDigests_ok checked
    have clean : ∀ path ∈ groups.map DemandGroup.path, path.clean = path := by
      intro path member
      obtain ⟨group, listed, rfl⟩ := mem_map.mp member
      exact group_clean group listed
    refine ⟨rfl, rfl, reaches.keeps (reads.keeps _) rfl,
      reads.sources _ _ given, rowsAt_of_answer held facts_inside
        (fun source member => (source_clean source member).1) ordered clean _ _ _, rfl,
      fun absent => ?_⟩
    have whole : ((versionsNow backend (closure.setBackend state).backend sources groups).map
        fun now => (closure.nextTableStateId + 1, now)).map Prod.snd =
        versionsNow backend (closure.setBackend state).backend sources groups := by
      rw [Option.map_map]
      exact Option.map_id'
    have without : (closure.setBackend state).exactPaths
        (versionsNow backend (closure.setBackend state).backend sources groups) = none := by
      rw [← whole]
      exact absent
    rw [without]
    rfl

end

section

variable {backend : Backend β H K F A} {digests : β → List (Path × H)}

def LastBuilt (built : List (Built H F A)) (demanded : List Path)
    (table : ProducerTable H (EntityFact F) A) (one : Built H F A) : Prop :=
  one ∈ built ∧ one.table.stateId = table.stateId ∧ one.table.generation = table.generation ∧
    RowsAt demanded one.table

/-- The current table has the digests of the program, and the previous one differs from them at noted
paths only. -/
structure Followed (digests : β → List (Path × H)) (built : List (Built H F A))
    (demanded : List Path) (closure : DemandClosure β H F A) : Prop where
  numbered : ∀ one ∈ built, one.table.stateId ≤ closure.nextTableStateId
  distinct : (built.map fun one => one.table.stateId).Nodup
  current : ∀ table ∈ closure.table, ∃ one, LastBuilt built demanded table one ∧
    one.table.sources = digests closure.backend
  previous : ∀ table ∈ closure.previousTable, ∃ one, LastBuilt built demanded table one ∧
    ∀ path, rowAt (digests closure.backend) path ≠ rowAt one.table.sources path →
      path ∈ closure.transportChangedPaths.getD ∅

variable {built : List (Built H F A)} {demanded : List Path} {closure after : DemandClosure β H F A}
  {changedPaths : List Path}

private theorem mem_invalidate (closure : DemandClosure β H F A)
    (changed : path ∈ changedPaths.map Path.clean) :
    path ∈ (closure.invalidate changedPaths).transportChangedPaths.getD ∅ := by
  unfold DemandClosure.invalidate
  split
  · rename_i none
    rw [none] at changed
    exact nomatch changed
  · exact Finset.mem_union_right _ (mem_toFinset.mpr changed)

def updateNames (outcome : UpdateOutcome) (changes : List FileChange) : Finset Path :=
  (outcome.affected ++ changes.map fun change => change.path.clean).toFinset

def UpdateFollows (backend : Backend β H K F A) (digests : β → List (Path × H))
    (changes : List FileChange) (state : β) : Prop :=
  ∀ outcome, (backend.update changes state).1 = .ok outcome → ∀ path,
    rowAt (digests (backend.update changes state).2) path ≠ rowAt (digests state) path →
      path ∈ updateNames outcome changes

def beforeRuns (backend : Backend β H K F A) (state : β) : β :=
  (backend.sourceDigests (backend.discardDerivedState state)).2

/-- An update names where it moves digests; a demand notes the paths that are not demanded any more,
and is answered facts in demanded paths. -/
def CallFollows (backend : Backend β H K F A) (digests : β → List (Path × H)) (codec : Codec K C)
    (closure : DemandClosure β H F A) (demanded : List Path) : Call K C → Prop
  | .update changes => UpdateFollows backend digests changes closure.backend
  | .demand _ groups changedPaths =>
    (∀ path ∈ demanded, path ∈ groups.map DemandGroup.path ∨ path ∈ changedPaths.map Path.clean) ∧
    ((closure.invalidate changedPaths).table = none → ∀ runs locations,
      prepareRuns codec (Grouping.sortByKey DemandGroup.path groups) = .ok (runs, locations) →
        FactsInside backend runs locations (beforeRuns backend closure.backend))
  | _ => True

def nextDemanded (demanded : List Path) (built : Option (Built H F A)) : Call K C → List Path
  | .demand _ groups _ => if built.isSome then
      (Grouping.sortByKey DemandGroup.path groups).map DemandGroup.path else demanded
  | _ => demanded

section

variable (followed : Followed digests built demanded closure)
include followed

private theorem Followed.moved {state : β} (same : digests state = digests closure.backend) :
    Followed digests built demanded (closure.setBackend state) := by
  refine ⟨followed.numbered, followed.distinct, fun table held => ?_, fun table held => ?_⟩
  · obtain ⟨one, last, sources⟩ := followed.current table held
    exact ⟨one, last, sources.trans same.symm⟩
  · obtain ⟨one, last, noted⟩ := followed.previous table held
    refine ⟨one, last, fun path differ => noted path ?_⟩
    rw [← same]
    exact differ

private theorem Followed.invalidate (changedPaths : List Path) :
    Followed digests built demanded (closure.invalidate changedPaths) := by
  unfold DemandClosure.invalidate
  split
  · exact followed
  · refine ⟨followed.numbered, followed.distinct, nofun, fun table held => ?_⟩
    split at held
    · obtain ⟨one, last, sources⟩ := followed.current table held
      exact ⟨one, last, fun path differ => absurd (congrArg (rowAt · path) sources.symm) differ⟩
    · obtain ⟨one, last, noted⟩ := followed.previous table held
      exact ⟨one, last, fun path differ => Finset.mem_union_left _ (noted path differ)⟩

private theorem update_followed (reads : backend.Reads digests) {changes : List FileChange}
    (follows : UpdateFollows backend digests changes closure.backend) :
    Followed digests built demanded (update backend changes closure).2 := by
  let answer := backend.update changes closure.backend
  refine (?_ : Meets (· = closure) (update backend changes)
    fun _ => Followed digests built demanded) closure rfl
  refine .bind (fun outcome after => after = closure.setBackend answer.2 ∧ outcome = answer.1)
    (fun _ start => by rw [start]; exact ⟨rfl, rfl⟩) (fun error after failed => ?_) fun outcome => ?_
  · rw [failed.1]
    exact followed.moved (reads.failing changes _ error failed.2.symm)
  · refine .modify_bind (fun after => after = closure.setBackend
        (backend.discardDerivedState answer.2) ∧ .ok outcome = answer.1)
      (fun _ reached => ⟨by rw [reached.1]; rfl, reached.2⟩) ?_
    refine .modify_bind (Followed digests built demanded) ?_ (.pure fun _ kept => kept)
    rintro _ ⟨rfl, returned⟩
    refine ⟨followed.numbered, followed.distinct, nofun, fun table held => ?_⟩
    obtain ⟨one, last, sources⟩ := followed.current table held
    refine ⟨one, last, fun path differ => follows outcome returned.symm path ?_⟩
    rw [sources] at differ
    rw [← reads.discarding]
    exact differ

variable [DecidableEq H]

section

variable {table : ProducerTable H (EntityFact F) A} {now : List Path}
  (issued : Issued digests closure now table after)
include issued

private theorem Issued.covers
    (names : ∀ path ∈ demanded, path ∈ now ∨ path ∈ closure.transportChangedPaths.getD ∅)
    (without : closure.exactPaths (after.pathVersions.map Prod.snd) = none)
    (manifest : TransportChanges) (carried : table.transport = some manifest) :
    ∃ base ∈ built, manifest.Names base.table ∧ manifest.Covers base.table table := by
  rw [issued.manifest without] at carried
  obtain ⟨previous, held, rfl⟩ := Option.map_eq_some_iff.mp carried
  obtain ⟨one, ⟨member, number, generation, rows⟩, noted⟩ := followed.previous previous held
  refine ⟨one, member, ⟨number, generation⟩, fun path differ => ?_⟩
  let named := closure.transportChangedPaths.getD ∅ ∪ now.toFinset
  obtain ⟨inside, clean⟩ : path ∈ named ∧ path.clean = path := by
    by_cases inNow : path ∈ now
    · exact ⟨Finset.mem_union_right _ (mem_toFinset.mpr inNow), issued.rows.clean path inNow⟩
    by_cases inBefore : path ∈ demanded
    · exact ⟨Finset.mem_union_left _ ((names path inBefore).resolve_left inNow),
        rows.clean path inBefore⟩
    have moved : rowAt table.sources path ≠ rowAt one.table.sources path := fun same =>
      differ (rows.rows_eq issued.rows same inBefore inNow)
    refine ⟨Finset.mem_union_left _ (noted path (issued.sources ▸ moved)), ?_⟩
    by_cases absent : rowAt table.sources path = none
    · exact rows.sources path fun gone => moved (absent.trans gone.symm)
    · exact issued.rows.sources path absent
  have listed : path ∈ named.image .clean := Finset.mem_image.mpr ⟨path, inside, clean⟩
  exact ⟨listed, listed, listed⟩

private theorem Issued.onward (versioned : Bool) :
    Followed digests (built ++ [⟨table, versioned⟩]) now { after with table := some table } := by
  refine ⟨fun one member => ?_, ?_, ?_, ?_⟩
  · change one.table.stateId ≤ after.nextTableStateId
    rw [issued.next]
    rcases mem_append.mp member with earlier | last
    · exact (followed.numbered one earlier).trans (Nat.le_succ _)
    · obtain rfl := mem_singleton.mp last
      exact Nat.le_of_eq issued.numbered
  · rw [map_append, nodup_append]
    refine ⟨followed.distinct, nodup_singleton _, fun stateId earlier other last => ?_⟩
    obtain ⟨one, member, rfl⟩ := mem_map.mp earlier
    obtain rfl := mem_singleton.mp last
    change one.table.stateId ≠ table.stateId
    rw [issued.numbered]
    exact Nat.ne_of_lt (Nat.lt_succ_of_le (followed.numbered one member))
  · rintro _ ⟨⟩
    exact ⟨_, ⟨mem_append_right _ (mem_singleton_self _), rfl, rfl, issued.rows⟩,
      issued.sources.trans issued.program.symm⟩
  · intro previous held
    rw [show _ = none from issued.previous] at held
    exact nomatch held

end

variable (reads : backend.Reads digests) (codec : Codec K C) (cells : EntityCells F)
include reads

private theorem demand_followed {generation : ℕ} {groups : List (DemandGroup K C)}
    (clean : (Call.demand generation groups changedPaths).Clean)
    (follows : CallFollows backend digests codec closure demanded
      (.demand generation groups changedPaths)) :
    let result := closure.call backend codec cells (.demand generation groups changedPaths)
    Followed digests (built ++ result.1.toList)
        (nextDemanded demanded result.1 (.demand generation groups changedPaths)) result.2 ∧
      ∀ one ∈ result.1, Covered false built one := by
  intro result
  have begun := followed.invalidate changedPaths
  have discarded : Followed digests built demanded (discarded backend closure changedPaths) :=
    begun.moved (by rw [reads.discarding, invalidate_backend])
  rcases call_demand (Followed digests built demanded) followed begun (fun _ _ reaches =>
      discarded.moved (reaches.keeps (reads.keeps _) rfl)) with
    ⟨none, left⟩ | ⟨anew, table, after, builds, made⟩
  · refine ⟨?_, fun one member => nomatch none.symm.trans member⟩
    rw [show result.1 = _ from none, Option.toList_none, append_nil]
    exact left
  · have issued := builds.issued reads
      (fun group member => clean group ((Grouping.sortByKey_perm _ groups).mem_iff.mp member))
      (follows.2 anew.absent)
    rw [show result = _ from made]
    refine ⟨issued.onward discarded _, ?_⟩
    rintro one ⟨⟩ without manifest carried
    refine issued.covers discarded (fun path member => ?_) (Option.not_isSome_iff_eq_none.mp
      (Bool.eq_false_iff.mp without)) manifest carried
    rcases follows.1 path member with still | noted
    · refine .inl ?_
      obtain ⟨group, listed, rfl⟩ := mem_map.mp still
      exact mem_map_of_mem ((Grouping.sortByKey_perm _ groups).mem_iff.mpr listed)
    · exact .inr (mem_invalidate closure noted)

private theorem call_followed (call : Call K C) (clean : call.Clean)
    (follows : CallFollows backend digests codec closure demanded call) :
    let result := closure.call backend codec cells call
    Followed digests (built ++ result.1.toList) (nextDemanded demanded result.1 call) result.2 ∧
      ∀ one ∈ result.1, Covered false built one := by
  cases call with
  | update changes =>
    refine ⟨?_, nofun⟩
    rw [show (closure.call backend codec cells (.update changes)).1.toList = [] from rfl,
      append_nil]
    exact update_followed followed reads follows
  | demand generation groups changedPaths =>
    exact demand_followed followed reads codec cells clean follows
  | release =>
    refine ⟨?_, nofun⟩
    rw [show (closure.call backend codec cells .release).1.toList = [] from rfl, append_nil]
    refine ⟨followed.numbered, followed.distinct, fun table held => ?_, followed.previous⟩
    obtain ⟨kept, current, rfl⟩ := Option.map_eq_some_iff.mp held
    exact followed.current kept current
  | reset =>
    refine ⟨?_, nofun⟩
    rw [show (closure.call backend codec cells .reset).1.toList = [] from rfl, append_nil]
    exact ⟨followed.numbered, followed.distinct, nofun, nofun⟩

end

variable [DecidableEq H]

def HistoryAll (backend : Backend β H K F A) (codec : Codec K C) (cells : EntityCells F)
    (property : DemandClosure β H F A → List Path → Call K C → Prop) :
    List (Call K C) → DemandClosure β H F A → List Path → Prop
  | [], _, _ => True
  | first :: later, closure, demanded =>
    let result := closure.call backend codec cells first
    property closure demanded first ∧ HistoryAll backend codec cells property later result.2
      (nextDemanded demanded result.1 first)

theorem call_keeps {kept : β → Prop} (keeps : backend.Keeps kept) (codec : Codec K C)
    (cells : EntityCells F) (held : kept closure.backend) (call : Call K C)
    (updated : ∀ changes, call = .update changes →
      kept (backend.update changes closure.backend).2) :
    kept (closure.call backend codec cells call).2.backend := by
  cases call with
  | update changes =>
    have moved := updated changes rfl
    refine (?_ : Meets (· = closure) (update backend changes) fun _ after => kept after.backend)
      closure rfl
    refine .bind (fun _ after => kept after.backend) (fun _ start => by rw [start]; exact moved)
      (fun _ _ kept => kept) fun outcome => ?_
    refine .modify_bind (fun after => kept after.backend)
      (fun after held => keeps.discarding after.backend held) ?_
    exact .modify_bind (fun after => kept after.backend) (fun _ held => held) (.pure fun _ held => held)
  | demand generation groups changedPaths =>
    have begun : kept (closure.invalidate changedPaths).backend := by rwa [invalidate_backend]
    rcases call_demand (fun closure => kept closure.backend) held begun
        (fun _ _ reaches => reaches.keeps keeps (keeps.discarding _ held)) with
      ⟨-, left⟩ | ⟨-, table, after, builds, made⟩
    · exact left
    · rw [made]
      exact builds.reaches.keeps keeps (keeps.discarding _ held)
  | release => exact held
  | reset => exact held

theorem HistoryAll.imp {codec : Codec K C}
    {weaker stronger : DemandClosure β H F A → List Path → Call K C → Prop}
    {kept : DemandClosure β H F A → Prop}
    (implies : ∀ closure demanded call, kept closure → stronger closure demanded call →
      weaker closure demanded call ∧ kept (closure.call backend codec cells call).2)
    {calls : List (Call K C)} (start : kept closure)
    (all : HistoryAll backend codec cells stronger calls closure demanded) :
    HistoryAll backend codec cells weaker calls closure demanded := by
  induction calls generalizing closure demanded with
  | nil => trivial
  | cons first later ih =>
    obtain ⟨here, next⟩ := implies _ _ _ start all.1
    exact ⟨here, ih next all.2⟩

theorem fallback_covers (reads : backend.Reads digests) (codec : Codec K C) (cells : EntityCells F)
    (state : β) (calls : List (Call K C)) (clean : ∀ call ∈ calls, call.Clean)
    (follows : HistoryAll backend codec cells (CallFollows backend digests codec) calls (new state)
      []) :
    let tables := history backend codec cells calls (new state)
    ∀ one ∈ tables, one.versioned = false → ∀ manifest, one.table.transport = some manifest →
      (∃ base ∈ tables, manifest.Names base.table) ∧
      ∀ base ∈ tables, manifest.Names base.table → manifest.Covers base.table one.table := by
  refine history_covers (fun calls built closure => ∃ demanded,
      Followed digests built demanded closure ∧ (∀ call ∈ calls, call.Clean) ∧
        HistoryAll backend codec cells (CallFollows backend digests codec) calls closure demanded)
    (fun _ _ _ ⟨_, followed, _⟩ => followed.distinct)
    (fun first later built closure ⟨_, followed, clean, here, rest⟩ => ?_)
    ⟨[], ⟨nofun, nodup_nil, nofun, nofun⟩, clean, follows⟩
  obtain ⟨next, added⟩ := call_followed followed reads codec cells first
    (clean first mem_cons_self) here
  exact ⟨⟨_, next, fun call member => clean call (mem_cons_of_mem _ member), rest⟩, added⟩

end

end DemandClosure

end SolidChecker.Producer
