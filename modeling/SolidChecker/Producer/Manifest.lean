/- source: apps/solid-typefacts/src/retained.rs, closure.rs, per_file.rs,
     typefacts/src/producer/manifest.rs -/

import SolidChecker.Producer.Trace

namespace SolidChecker.Producer

open Foundation Foundation.Act List

inductive Call (K C : Type)
  | update (changes : List FileChange)
  | demand (generation : ℕ) (groups : List (DemandGroup K C)) (changedPaths : List Path)
  | release
  | reset

variable {β ω H K V W F A C X : Type}

namespace DemandClosure

/-- A built table, if its manifest is from versions or not as asked, is covered against an earlier
one. -/
def Covered (versioned : Bool) (built : List (Built H F A)) (one : Built H F A) : Prop :=
  one.versioned = versioned → ∀ manifest, one.table.transport = some manifest →
    ∃ base ∈ built, manifest.Names base.table ∧ manifest.Covers base.table one.table

variable [DecidableEq H] (backend : Backend β H K F A) (codec : Codec K C) (cells : EntityCells F)

def call (closure : DemandClosure β H F A) :
    Call K C → Option (Built H F A) × DemandClosure β H F A
  | .update changes => (none, (update backend changes closure).2)
  | .demand generation groups changedPaths =>
    let result := demandTableForPreparedGroups backend codec cells generation groups changedPaths
      closure
    let before := closure.invalidate changedPaths
    (match before.table, result.1 with
      | none, .ok table =>
        some ⟨table, (before.exactPaths (result.2.pathVersions.map Prod.snd)).isSome⟩
      | _, _ => none, result.2)
  | .release => (none, closure.releaseTransportRows)
  | .reset => (none, closure.resetAnalysisState)

def history : List (Call K C) → DemandClosure β H F A → List (Built H F A)
  | [], _ => []
  | first :: later, closure =>
    let (built, closure) := closure.call backend codec cells first
    built.toList ++ history later closure

variable {backend codec cells} {closure : DemandClosure β H F A}

theorem history_covers {versioned : Bool}
    (known : List (Call K C) → List (Built H F A) → DemandClosure β H F A → Prop)
    (distinct : ∀ calls built closure, known calls built closure →
      (built.map fun one => one.table.stateId).Nodup)
    (step : ∀ first later built closure, known (first :: later) built closure →
      let result := closure.call backend codec cells first
      known later (built ++ result.1.toList) result.2 ∧ ∀ one ∈ result.1, Covered versioned built one)
    {calls : List (Call K C)} (start : known calls [] closure) :
    let tables := history backend codec cells calls closure
    ∀ one ∈ tables, one.versioned = versioned → ∀ manifest, one.table.transport = some manifest →
      (∃ base ∈ tables, manifest.Names base.table) ∧
      ∀ base ∈ tables, manifest.Names base.table → manifest.Covers base.table one.table := by
  have all : ∀ built, known calls built closure → (∀ one ∈ built, Covered versioned built one) →
      let tables := built ++ history backend codec cells calls closure
      (tables.map fun one => one.table.stateId).Nodup ∧
        ∀ one ∈ tables, Covered versioned tables one := by
    clear start
    induction calls generalizing closure with
    | nil =>
      intro built holds covered
      rw [show history backend codec cells [] closure = [] from rfl, append_nil]
      exact ⟨distinct _ _ _ holds, covered⟩
    | cons first later ih =>
      intro built holds covered
      obtain ⟨next, added⟩ := step first later built closure holds
      have rest := ih _ next fun one member versions manifest carried => by
        obtain ⟨base, earlier, covers⟩ := (mem_append.mp member).elim (covered one)
          (fun last => added one (Option.mem_toList.mp last)) versions manifest carried
        exact ⟨base, mem_append_left _ earlier, covers⟩
      rwa [append_assoc] at rest
  obtain ⟨distinct, covered⟩ := all [] start nofun
  intro tables one member versions manifest carried
  obtain ⟨base, built, names, covers⟩ := covered one member versions manifest carried
  refine ⟨⟨base, built, names⟩, fun other other_built other_names => ?_⟩
  obtain rfl := inj_on_of_nodup_map distinct built other_built (names.1.trans other_names.1.symm)
  exact covers

theorem call_demand {generation : ℕ}
    {groups : List (DemandGroup K C)} {changedPaths : List Path}
    (kept : DemandClosure β H F A → Prop) (start : kept closure)
    (before : kept (closure.invalidate changedPaths))
    (moved : Anew groups closure generation changedPaths → ∀ state,
      Reaches backend cells codec (Grouping.sortByKey DemandGroup.path groups)
        (backend.discardDerivedState closure.backend) state →
      kept ((closure.invalidate changedPaths).setBackend state)) :
    let result := closure.call backend codec cells (.demand generation groups changedPaths)
    (result.1 = none ∧ kept result.2) ∨ Anew groups closure generation changedPaths ∧
      ∃ table after, Builds backend cells codec (Grouping.sortByKey DemandGroup.path groups)
        generation (discarded backend closure changedPaths) (.ok table) after ∧
      result = (some ⟨table, ((closure.invalidate changedPaths).exactPaths
        (after.pathVersions.map Prod.snd)).isSome⟩, { after with table := some table }) := by
  have demands := demandTable_demands backend cells codec groups closure generation changedPaths
    closure rfl
  intro result
  unfold result call
  dsimp only
  generalize demandTableForPreparedGroups backend codec cells generation groups changedPaths
    closure = run at demands ⊢
  obtain ⟨outcome, after⟩ := run
  cases demands with
  | refused => exact .inl ⟨by split <;> trivial, start⟩
  | twice => exact .inl ⟨by split <;> trivial, before⟩
  | kept held => exact .inl ⟨by rw [held], before⟩
  | failed anew builds =>
    cases builds with
    | failed reaches => exact .inl ⟨by rw [anew.absent], moved anew _ reaches⟩
  | built anew builds => exact .inr ⟨anew, _, _, builds, by rw [anew.absent]⟩

end DemandClosure

section

def Call.Clean : Call K C → Prop
  | .demand _ groups _ => ∀ group ∈ groups, group.path.clean = group.path
  | _ => True

variable {compiler : Compiler ω H K W F X} {passes : PassOutputs V W F X} {codec : Codec K C}
  (cells : EntityCells F)
  {meaning : Path → ℕ → List (EntityFact F) × List (AsyncFunctionFact X)}
  {built : List (Built H F (AsyncFunctionFact X))}
  {closure : DemandClosure (Project ω W F X) H F (AsyncFunctionFact X)}

private theorem WasBuilt.released {table : ProducerTable H (EntityFact F) (AsyncFunctionFact X)}
    (was_built : WasBuilt built table) : WasBuilt built table.released := was_built

variable [DecidableEq V] [DecidableEq W] [DecidableEq X]

section

variable (compiler passes codec closure)

def Call.VersionsSee : Call K C → Prop
  | .demand generation groups changedPaths =>
    let groups := Grouping.sortByKey DemandGroup.path groups
    closure.generation = generation → (closure.invalidate changedPaths).table = none →
      namedTwice groups = none → ∀ prepared ∈ (DemandClosure.prepareRuns codec groups).toOption,
        DemandClosure.VersionsSee compiler passes prepared.1 prepared.2
          (closure.backend.setCompiler (compiler.sourceDigests
            (compiler.discardDerivedState closure.backend.compiler)).2)
  | _ => True

instance [DecidableEq F] :
    (call : Call K C) → Decidable (call.VersionsSee compiler passes codec closure)
  | .update _ => .isTrue trivial
  | .demand _ _ _ => inferInstanceAs
      (Decidable (_ → _ → _ → ∀ _ ∈ Except.toOption _, DemandClosure.VersionsSee _ _ _ _ _))
  | .release => .isTrue trivial
  | .reset => .isTrue trivial

end

variable (traced : Traced passes meaning built closure)
include traced

omit [DecidableEq V] [DecidableEq W] [DecidableEq X] in
private theorem Traced.invalidate (changedPaths : List Path) : Traced passes meaning built (closure.invalidate changedPaths) := by
  unfold DemandClosure.invalidate
  split
  · exact traced
  · refine ⟨traced.sound, traced.numbered, traced.distinct, nofun, ?_, traced.described⟩
    split
    · exact traced.current
    · exact traced.previous

variable (compiler) in
private theorem update_traced (changes : List FileChange) :
    Meets (· = closure) (DemandClosure.update (Project.backend compiler passes) changes)
      fun _ after => Traced passes meaning built after := by
  refine DemandClosure.ask_bind (fun _ => traced.moved (.refl traced.sound)) fun outcome _ => ?_
  refine .modify_bind (Traced passes meaning built) ?_ (.modify_bind
    (Traced passes meaning built) (fun _ moved => ?_) (.pure fun _ kept => kept))
  · rintro _ rfl
    exact traced.moved (.refl traced.sound)
  · exact ⟨moved.sound, moved.numbered, moved.distinct, nofun, moved.current, moved.described⟩

variable [DecidableEq H]

private theorem demand_traced {generation : ℕ} {groups : List (DemandGroup K C)}
    {changedPaths : List Path} (clean : (Call.demand generation groups changedPaths).Clean)
    (see : (Call.demand generation groups changedPaths).VersionsSee compiler passes codec closure) :
    let result := closure.call (Project.backend compiler passes) codec cells
      (.demand generation groups changedPaths)
    (∃ extended, Traced passes extended (built ++ result.1.toList) result.2) ∧
      ∀ one ∈ result.1, DemandClosure.Covered true built one := by
  intro result
  let sorted := Grouping.sortByKey DemandGroup.path groups
  have begun := traced.invalidate changedPaths
  have onward {extended} {project : Project ω W F X}
      (moved : Moved passes meaning extended closure.backend.perFile project.perFile) :
      Traced passes extended built ((closure.invalidate changedPaths).setBackend project) :=
    begun.moved (by rwa [DemandClosure.invalidate_backend])
  have ascend (anew : DemandClosure.Anew groups closure generation changedPaths) :=
    groups_ascend (Grouping.sortByKey_sorted _ groups) anew.once
  have seen (anew : DemandClosure.Anew groups closure generation changedPaths) (runs locations)
      (prepared : DemandClosure.prepareRuns codec sorted = .ok (runs, locations)) :=
    see anew.current anew.absent anew.once (runs, locations) (by rw [prepared]; rfl)
  rcases DemandClosure.call_demand (fun closure => ∃ meaning, Traced passes meaning built closure)
    ⟨meaning, traced⟩ ⟨meaning, begun⟩ (fun anew _ reaches =>
      (reaches.moved traced.sound (ascend anew) (seen anew)).imp fun _ => onward) with
    ⟨none, left⟩ | ⟨anew, table, after, builds, made⟩
  · refine ⟨?_, fun one member => nomatch none.symm.trans member⟩
    rw [none, Option.toList_none, append_nil]
    exact left
  · obtain ⟨⟨extended, traced_now⟩, covers⟩ := builds.publishes (onward (.refl traced.sound))
      (ascend anew)
      (fun group member => clean group ((Grouping.sortByKey_perm _ groups).mem_iff.mp member))
      (seen anew)
    rw [show result = _ from made]
    refine ⟨⟨extended, traced_now _⟩, ?_⟩
    rintro one ⟨⟩
    exact covers

private theorem call_traced (call : Call K C) (clean : call.Clean)
    (see : call.VersionsSee compiler passes codec closure) :
    let result := closure.call (Project.backend compiler passes) codec cells call
    (∃ extended, Traced passes extended (built ++ result.1.toList) result.2) ∧
      ∀ one ∈ result.1, DemandClosure.Covered true built one := by
  cases call with
  | update changes =>
    have kept := update_traced compiler traced changes closure rfl
    exact ⟨⟨meaning, (append_nil built).symm ▸ kept⟩, nofun⟩
  | demand generation groups changedPaths => exact demand_traced cells traced clean see
  | release =>
    have kept : Traced passes meaning built closure.releaseTransportRows := by
      refine ⟨traced.sound, traced.numbered, traced.distinct, fun table found => ?_,
        traced.previous, traced.described⟩
      obtain ⟨held, current, rfl⟩ := Option.map_eq_some_iff.mp found
      exact (traced.current held current).released
    exact ⟨⟨meaning, (append_nil built).symm ▸ kept⟩, nofun⟩
  | reset =>
    have kept : Traced passes meaning built closure.resetAnalysisState :=
      ⟨traced.sound, traced.numbered, traced.distinct, nofun, nofun, traced.described⟩
    exact ⟨⟨meaning, (append_nil built).symm ▸ kept⟩, nofun⟩

end

namespace DemandClosure

section

private theorem new_traced (passes : PassOutputs V W F X) (state : ω) :
    Traced passes (fun _ _ => ([], [])) [] (DemandClosure.new ⟨state, PerFile.new⟩ :
        DemandClosure (Project ω W F X) H F (AsyncFunctionFact X)) :=
  ⟨PerFile.new_sound passes _, nofun, nodup_nil, nofun, nofun, nofun⟩

variable [DecidableEq V] [DecidableEq W] [DecidableEq X] [DecidableEq H]

variable (compiler : Compiler ω H K W F X) (passes : PassOutputs V W F X) (codec : Codec K C)
  (cells : EntityCells F) in
def HistorySees : List (Call K C) →
    DemandClosure (Project ω W F X) H F (AsyncFunctionFact X) → Prop
  | [], _ => True
  | first :: later, closure => first.VersionsSee compiler passes codec closure ∧
      HistorySees later (closure.call (Project.backend compiler passes) codec cells first).2

/-- In a history whose calls take away rows only where versions see it, a manifest computed from
versions names a table that was built, and every path at which the new one differs from it; a client
that holds the base and applies the sparse transition holds the new table's rows. -/
theorem manifest_covers_changes (compiler : Compiler ω H K W F X) (passes : PassOutputs V W F X)
    (codec : Codec K C) (cells : EntityCells F) (state : ω) (calls : List (Call K C))
    (clean : ∀ call ∈ calls, call.Clean)
    (sees : HistorySees compiler passes codec cells calls (new ⟨state, PerFile.new⟩)) :
    let tables := history (Project.backend compiler passes) codec cells calls
      (new ⟨state, PerFile.new⟩)
    ∀ one ∈ tables, one.versioned = true → ∀ manifest, one.table.transport = some manifest →
      (∃ base ∈ tables, manifest.Names base.table) ∧
      ∀ base ∈ tables, manifest.Names base.table → manifest.Covers base.table one.table ∧
        applyAll (planSparsePaths one.table manifest) base.table.rows = one.table.rows := by
  intro tables one member versioned manifest carried
  have covers := history_covers (fun calls built closure =>
      (∃ meaning, Traced passes meaning built closure) ∧ (∀ call ∈ calls, call.Clean) ∧
        HistorySees compiler passes codec cells calls closure)
    (fun _ _ _ known => known.1.elim fun _ traced => traced.distinct)
    (fun first later built closure ⟨⟨_, traced⟩, clean, see, sees⟩ => by
      obtain ⟨traced, added⟩ := call_traced cells traced first (clean first mem_cons_self) see
      exact ⟨⟨traced, fun call member => clean call (mem_cons_of_mem _ member), sees⟩, added⟩)
    ⟨⟨_, new_traced passes state⟩, clean, sees⟩ one member versioned manifest carried
  exact ⟨covers.1, fun base built names => ⟨covers.2 base built names,
    (covers.2 base built names).applied⟩⟩

end

namespace TwoFiles

def passes : PassOutputs ℕ Unit Unit Unit where
  value := id
  rows output _ := [⟨⟨if output = 0 then ['a'] else ['b'], 0, 1⟩, ()⟩]
  facts _ := [⟨⟨['b'], 2, 3⟩, [], [], ()⟩]

def compiler : Compiler Unit Unit Unit Unit Unit Unit where
  cancelled _ := (false, ())
  sourceDigests _ := (.ok [(['a'], ()), (['b'], ())], ())
  update _ _ := (.ok ⟨[], true⟩, ())
  discardDerivedState := id
  runPasses _ runs _ :=
    (⟨none, [], fun _ => if runs.map Prod.fst = [['a']] then 0 else 1, false, false,
      fun _ => false, fun _ => (), .error ""⟩, ())

def codec : Codec Unit Unit := ⟨fun _ => .ok (), fun _ _ => .ok [], fun _ _ => .ok []⟩

def cells : EntityCells Unit := ⟨(), fun _ _ => ()⟩

def group (path : Path) : DemandGroup Unit Unit := ⟨path, .plain [⟨⟨path, 0, 1⟩, none, false, ()⟩]⟩

def tables (calls : List (Call Unit Unit)) : List (Built Unit Unit (AsyncFunctionFact Unit)) :=
  history (Project.backend compiler passes) codec cells calls (new ⟨(), PerFile.new⟩)

def emptied (path : Path) : List (Call Unit Unit) :=
  [.demand 1 [group path] [path], .demand 1 [] [path]]

def replaced (before after : Path) : List (Call Unit Unit) :=
  [.demand 1 [group before] [before], .demand 1 [group after] [before, after]]

end TwoFiles

open TwoFiles in
/-- Where `a` is replaced by `b`, versions see that the rows of `a` leave. -/
theorem manifest_covers_changes_replaced :
    (∃ one ∈ tables (replaced ['a'] ['b']), one.versioned = true ∧
      ∃ manifest ∈ one.table.transport, ['a'] ∈ manifest.entityPaths) ∧
    ∀ one ∈ tables (replaced ['a'] ['b']), one.versioned = true →
      ∀ manifest, one.table.transport = some manifest →
        (∃ base ∈ tables (replaced ['a'] ['b']), manifest.Names base.table) ∧
        ∀ base ∈ tables (replaced ['a'] ['b']), manifest.Names base.table →
          manifest.Covers base.table one.table ∧
            applyAll (planSparsePaths one.table manifest) base.table.rows = one.table.rows := by
  refine ⟨by decide +kernel, manifest_covers_changes compiler passes codec cells () _ ?_ ?_⟩
  · intro call member
    rcases mem_cons.mp member with rfl | member
    · intro group member
      obtain rfl := mem_singleton.mp member
      decide +kernel
    · obtain rfl := mem_singleton.mp member
      intro group member
      obtain rfl := mem_singleton.mp member
      decide +kernel
  · exact ⟨by decide +kernel, by decide +kernel, trivial⟩

open TwoFiles in
/-- The rows of `a` leave with the last demand, and those of `b` while its async facts stay: either
time the manifest does not name the path. -/
theorem manifest_misses_left :
    (∃ one ∈ tables (emptied ['a']), one.versioned = true ∧ ∃ manifest ∈ one.table.transport,
      ∃ base ∈ tables (emptied ['a']), manifest.Names base.table ∧
        one.table.rows ['a'] ≠ base.table.rows ['a'] ∧ ['a'] ∉ manifest.entityPaths) ∧
    ∃ one ∈ tables (replaced ['b'] ['a']), one.versioned = true ∧ ∃ manifest ∈ one.table.transport,
      ∃ base ∈ tables (replaced ['b'] ['a']), manifest.Names base.table ∧
        one.table.rows ['b'] ≠ base.table.rows ['b'] ∧ ['b'] ∉ manifest.entityPaths := by
  exact ⟨by decide +kernel, by decide +kernel⟩

end DemandClosure

end SolidChecker.Producer
