/- source: solid-reactive-ir/src/reachability.rs; cache.rs -/

import Mathlib.Data.List.Destutter
import Mathlib.Data.List.Sort

namespace SolidChecker.Reachability

open List

abbrev Span := ℕ × ℕ

structure FunctionNode (Y : Type*) where
  span : Span
  symbol : Option Y

inductive ReachabilityTarget (Y : Type*)
  | symbol (symbol : Y)
  | localSpan (span : Span)

structure Call where
  callee : Span
  owner : Option Span
  listOwner : Option Span

structure CachedReachabilityFile (Y : Type*) where
  functions : List (FunctionNode Y)
  roots : List (ReachabilityTarget Y)
  edges : List (Option Span × ReachabilityTarget Y)
  callbackEdges : List (Option Span × List (ReachabilityTarget Y))
  calls : List Call

inductive ReachabilityTopologyTarget (Y : Type*)
  | symbol (symbol : Y)
  | localIndex (index : ℕ)
deriving DecidableEq

structure ReachabilityTopology (Y : Type*) where
  functionSymbols : List (Option Y)
  roots : List (ReachabilityTopologyTarget Y)
  edges : List (Option ℕ × ReachabilityTopologyTarget Y)
  callbackEdges : List (Option ℕ × List (ReachabilityTopologyTarget Y))
deriving DecidableEq

/-- A table lists its entries with the newest first, so that an insertion is a cons. -/
abbrev Cache (P Y : Type*) := List (P × CachedReachabilityFile Y)

variable {P Y : Type*}

namespace CachedReachabilityFile

variable (file : CachedReachabilityFile Y)

def localIndex (span : Span) : Option ℕ :=
  file.functions.findIdx? fun function => decide (function.span = span)

def topologyTarget : ReachabilityTarget Y → Option (ReachabilityTopologyTarget Y)
  | .symbol symbol => some (.symbol symbol)
  | .localSpan span => (file.localIndex span).map .localIndex

def topology : ReachabilityTopology Y where
  functionSymbols := file.functions.map (·.symbol)
  roots := file.roots.filterMap file.topologyTarget
  edges := file.edges.filterMap fun edge =>
    (file.topologyTarget edge.2).map fun target => (edge.1.bind file.localIndex, target)
  callbackEdges := file.callbackEdges.map fun edge =>
    (edge.1.bind file.localIndex, edge.2.filterMap file.topologyTarget)

end CachedReachabilityFile

section

variable [DecidableEq P] [DecidableEq Y] (functionSymbols : List Y)

def retainedTarget : ReachabilityTopologyTarget Y → Bool
  | .localIndex _ => true
  | .symbol symbol => decide (symbol ∈ functionSymbols)

def ReachabilityTopology.effective (topology : ReachabilityTopology Y) : ReachabilityTopology Y where
  functionSymbols := topology.functionSymbols
  roots := topology.roots.filter (retainedTarget functionSymbols)
  edges := topology.edges.filter fun edge => retainedTarget functionSymbols edge.2
  callbackEdges := topology.callbackEdges.filterMap fun edge =>
    let targets := edge.2.filter (retainedTarget functionSymbols)
    if targets = [] then none else some (edge.1, targets)

variable {α τ : Type*} (owner : α → Option ℕ) (resolve : τ → Option ℕ)

/-- The links of a file in the order they are made. One without an owner makes its target a
root. -/
def links (roots : List τ) (edges : List (Option α × τ)) (callbackEdges : List (Option α × List τ)) :
    List (Option ℕ × ℕ) :=
  roots.filterMap (fun target => (resolve target).map fun index => (none, index)) ++
  edges.filterMap (fun edge => (resolve edge.2).map fun index => (edge.1.bind owner, index)) ++
  callbackEdges.flatMap fun edge =>
    (((edge.2.filterMap resolve).mergeSort).destutter (· ≠ ·)).map
      fun index => (edge.1.bind owner, index)

structure Graph where
  roots : List ℕ
  edges : List (List ℕ)

def Graph.link (graph : Graph) : Option ℕ × ℕ → Graph
  | (some owner, target) => { graph with edges := graph.edges.modify owner (· ++ [target]) }
  | (none, target) => { graph with roots := graph.roots ++ [target] }

variable (held : Cache P Y)

def functionsOf : List (P × FunctionNode Y) :=
  held.flatMap fun entry => entry.2.functions.map fun function => (entry.1, function)

def symbolsOf : List (Option Y) :=
  (functionsOf held).map (·.2.symbol)

def bySymbol (symbols : List (Option Y)) : List (Y × ℕ) :=
  (symbols.zipIdx.filterMap fun entry => entry.1.map fun symbol => (symbol, entry.2)).reverse

def knownSymbols : List Y :=
  (bySymbol (symbolsOf held)).map Prod.fst

def slices (multiplicity : List ℕ) : ℕ → Cache P Y → List (P × List ℕ)
  | _, [] => []
  | offset, (path, file) :: rest =>
    (path, (multiplicity.drop offset).take file.functions.length) ::
      slices multiplicity (offset + file.functions.length) rest

def localTarget (functions : List (P × FunctionNode Y)) (path : P) (span : Span) : Option ℕ :=
  functions.findIdx? fun function => decide (function.1 = path) && decide (function.2.span = span)

def resolveTarget (functions : List (P × FunctionNode Y)) (path : P) :
    ReachabilityTarget Y → Option ℕ
  | .symbol symbol => (bySymbol (functions.map (·.2.symbol))).lookup symbol
  | .localSpan span => localTarget functions path span

def linksOf : List (Option ℕ × ℕ) :=
  held.flatMap fun entry =>
    links (localTarget (functionsOf held) entry.1) (resolveTarget (functionsOf held) entry.1)
      entry.2.roots entry.2.edges entry.2.callbackEdges

def graphOf : Graph :=
  let graph := (linksOf held).foldl Graph.link ⟨[], replicate (functionsOf held).length []⟩
  { graph with roots := graph.roots.mergeSort.destutter (· ≠ ·) }

def reach (index : Span → Option ℕ) (multiplicity : List ℕ) (owner : Option Span) : ℕ :=
  ((owner.bind index).bind (multiplicity[·]?)).getD 0

def CachedReachabilityFile.callRows (file : CachedReachabilityFile Y) (reach : Option Span → ℕ) :
    List (Span × ℕ) :=
  file.calls.foldl (fun calls call =>
    let total := max (reach call.owner) (reach call.listOwner)
    if total = 0 then calls else (call.callee, total) :: calls) []

structure State (P Y : Type*) where
  files : Cache P Y
  multiplicityByPath : List (P × List ℕ)
  calls : P → List (Span × ℕ)
  functionSymbols : List Y

-- The number of paths from the roots to each function.
variable (pathCounts : Graph → List ℕ)

def assemble (files : Cache P Y) : State P Y :=
  let functions := functionsOf files
  let multiplicity := pathCounts (graphOf files)
  { files
    multiplicityByPath := slices multiplicity 0 files
    calls := fun path =>
      (files.lookup path).elim [] (·.callRows (reach (localTarget functions path) multiplicity))
    functionSymbols := knownSymbols files }

end

section

/-- A file of a build, whether its identity, proof and compiler facts match the cached ones, and
what discovery finds in it. -/
structure Listed (P Y : Type*) where
  path : P
  unchanged : Bool
  discovered : CachedReachabilityFile Y

structure Build (P Y : Type*) [LinearOrder P] where
  files : List (Listed P Y)
  ordered : (files.map (·.path)).Pairwise (· < ·)

variable [LinearOrder P] [DecidableEq Y]

def Build.paths (build : Build P Y) : List P := build.files.map (·.path)

namespace Listed

variable (cache : Cache P Y) (file : Listed P Y)

def reusable : Bool := file.unchanged && (cache.lookup file.path).isSome

def fragment : CachedReachabilityFile Y :=
  if file.unchanged then (cache.lookup file.path).getD file.discovered else file.discovered

def sameTopology (functionSymbols : List Y) : Bool :=
  (cache.lookup file.path).any fun previous => decide
    (previous.topology.effective functionSymbols = file.discovered.topology.effective functionSymbols)

end Listed

def patchedCalls (files : Cache P Y) (multiplicityByPath : List (P × List ℕ)) (path : P) :
    List (Span × ℕ) :=
  (files.lookup path).elim [] fun file =>
    file.callRows (reach file.localIndex ((multiplicityByPath.lookup path).getD []))

variable (pathCounts : Graph → List ℕ)

def reachableCallMultiplicityIncremental (state : State P Y) (build : Build P Y) : State P Y :=
  let removed := (state.files.map Prod.fst).filter fun path => decide (path ∉ build.paths)
  let multiplicityByPath :=
    state.multiplicityByPath.filter fun entry => decide (entry.1 ∈ build.paths)
  let recomputed := build.files.filter fun file => !file.reusable state.files
  let topologyUnchanged := !multiplicityByPath.isEmpty && removed.isEmpty &&
    recomputed.all (·.sameTopology state.files state.functionSymbols)
  let files := build.files.map fun file => (file.path, file.fragment state.files)
  -- Counts that are missing for a recomputed file stop the patch.
  if topologyUnchanged &&
      recomputed.all fun file => (multiplicityByPath.lookup file.path).isSome then
    { files
      multiplicityByPath
      calls := fun path => if path ∈ recomputed.map (·.path) then
          patchedCalls files multiplicityByPath path
        else if path ∈ removed then [] else state.calls path
      functionSymbols := state.functionSymbols }
  else assemble pathCounts files

end

private theorem slices_append (multiplicity : List ℕ) (offset : ℕ) (first second : Cache P Y) :
    slices multiplicity offset (first ++ second) = slices multiplicity offset first ++
      slices multiplicity (offset + (functionsOf first).length) second := by
  induction first generalizing offset with
  | nil => rfl
  | cons entry first ih =>
    rw [cons_append, slices, slices, ih]
    simp [functionsOf, Nat.add_assoc]

private theorem slices_paths (multiplicity : List ℕ) (offset : ℕ) (held : Cache P Y) :
    (slices multiplicity offset held).map Prod.fst = held.map Prod.fst := by
  induction held generalizing offset with
  | nil => rfl
  | cons entry held ih => rw [slices, map_cons, map_cons, ih]

section

variable {K V : Type*} [DecidableEq K] {table : List (K × V)} {key : K}

private theorem lookup_absent (absent : key ∉ table.map Prod.fst) : table.lookup key = none := by
  refine lookup_eq_none_iff.mpr fun entry member => ?_
  simpa using fun same : key = entry.1 => absent (same ▸ mem_map_of_mem member)

private theorem lookup_iff_mem (distinct : (table.map Prod.fst).Nodup) {value : V} :
    table.lookup key = some value ↔ (key, value) ∈ table := by
  constructor
  · intro found
    obtain ⟨before, after, rfl, -⟩ := lookup_eq_some_iff.mp found
    simp
  · intro member
    obtain ⟨before, after, rfl⟩ := append_of_mem member
    rw [map_append, map_cons] at distinct
    have apart : key ∉ before.map Prod.fst := fun earlier =>
      (nodup_append.mp distinct).2.2 key earlier key mem_cons_self rfl
    rw [lookup_append, lookup_absent apart, Option.none_or, lookup_cons_self]

end

section

variable [DecidableEq Y]

private theorem filterMap_retained {τ : Type*} {keeps : τ → Bool} {resolve : τ → Option ℕ}
    (dropped : ∀ target, keeps target = false → resolve target = none) (targets : List τ) :
    (targets.filter keeps).filterMap resolve = targets.filterMap resolve := by
  rw [filterMap_filter]
  refine congrArg (filterMap · targets) (funext fun target => ?_)
  cases kept : keeps target with
  | true => rfl
  | false => exact (dropped target kept).symm

private theorem links_topology {file : CachedReachabilityFile Y} {symbols : List Y}
    {owner : Span → Option ℕ} {resolve : ReachabilityTarget Y → Option ℕ} {shift : ℕ → Option ℕ}
    {aim : ReachabilityTopologyTarget Y → Option ℕ}
    (owners : ∀ span, owner span = (file.localIndex span).bind shift)
    (targets : ∀ target, resolve target = (file.topologyTarget target).bind aim)
    (dropped : ∀ target, retainedTarget symbols target = false → aim target = none) :
    let topology := file.topology.effective symbols
    links owner resolve file.roots file.edges file.callbackEdges =
      links shift aim topology.roots topology.edges topology.callbackEdges := by
  have owned : ∀ span : Option Span, span.bind owner = (span.bind file.localIndex).bind shift := by
    intro span
    cases span with
    | none => rfl
    | some span => exact owners span
  have resolved : ∀ list : List (ReachabilityTarget Y), list.filterMap resolve =
      ((list.filterMap file.topologyTarget).filter (retainedTarget symbols)).filterMap aim := by
    intro list
    rw [filterMap_retained dropped, filterMap_filterMap]
    exact congrArg (filterMap · list) (funext targets)
  unfold links ReachabilityTopology.effective CachedReachabilityFile.topology
  refine congrArg₂ _ (congrArg₂ _ ?_ ?_) ?_
  · rw [← map_filterMap, ← map_filterMap, resolved]
  · rw [filterMap_filter, filterMap_filterMap]
    refine congrArg (filterMap · file.edges) (funext fun edge => ?_)
    rw [targets, owned]
    cases file.topologyTarget edge.2 with
    | none => rfl
    | some target =>
      cases kept : retainedTarget symbols target with
      | true => simp [kept]
      | false => simp [kept, dropped target kept]
  · induction file.callbackEdges with
    | nil => rfl
    | cons edge rest ih =>
      rw [flatMap_cons, map_cons, ih, resolved, owned]
      by_cases empty : (edge.2.filterMap file.topologyTarget).filter (retainedTarget symbols) = []
      · simp only [filterMap_cons, empty]
        simp
      · simp only [filterMap_cons, empty, if_false]
        simp

def aim (symbols : List (Option Y)) (offset : ℕ) : ReachabilityTopologyTarget Y → Option ℕ
  | .symbol symbol => (bySymbol symbols).lookup symbol
  | .localIndex index => some (index + offset)

def topologyLinks (symbols : List (Option Y)) : ℕ → List (ReachabilityTopology Y) →
    List (Option ℕ × ℕ)
  | _, [] => []
  | offset, topology :: rest =>
    links (fun index => some (index + offset)) (aim symbols offset) topology.roots topology.edges
        topology.callbackEdges ++
      topologyLinks symbols (offset + topology.functionSymbols.length) rest

private theorem aim_dropped {held : Cache P Y} {offset : ℕ} {target : ReachabilityTopologyTarget Y}
    (dropped : retainedTarget (knownSymbols held) target = false) :
    aim (symbolsOf held) offset target = none := by
  cases target with
  | localIndex index => exact nomatch dropped
  | symbol symbol =>
    have unknown : symbol ∉ knownSymbols held := by simpa [retainedTarget] using dropped
    exact lookup_absent unknown

end

section

variable [DecidableEq P]

private theorem localTarget_none {held : Cache P Y} {path : P}
    (apart : ∀ entry ∈ held, entry.1 ≠ path) (span : Span) :
    localTarget (functionsOf held) path span = none := by
  refine findIdx?_eq_none_iff.mpr fun function member => ?_
  obtain ⟨entry, inside, own⟩ := mem_flatMap.mp member
  obtain ⟨_, -, rfl⟩ := mem_map.mp own
  simp [apart entry inside]

section

variable {before after : Cache P Y} {path : P} {file : CachedReachabilityFile Y}
  (distinct : ((before ++ (path, file) :: after).map Prod.fst).Nodup)

include distinct

private theorem localTarget_eq (span : Span) :
    localTarget (functionsOf (before ++ (path, file) :: after)) path span =
      (file.localIndex span).map (· + (functionsOf before).length) := by
  have apart : ∀ entry ∈ before ++ after, entry.1 ≠ path := by
    intro entry member same
    rw [map_append, map_cons, nodup_middle, ← map_append] at distinct
    exact (nodup_cons.mp distinct).1 (mem_map.mpr ⟨entry, member, same⟩)
  have earlier := localTarget_none (fun entry member => apart entry (mem_append_left _ member)) span
  have later := localTarget_none (fun entry member => apart entry (mem_append_right _ member)) span
  unfold localTarget functionsOf at earlier later ⊢
  rw [flatMap_append, findIdx?_append, earlier, Option.none_or]
  rw [flatMap_cons, findIdx?_append, later, Option.map_none, Option.or_none, findIdx?_map]
  unfold CachedReachabilityFile.localIndex
  simp [Function.comp_def]

private theorem reach_slice (multiplicity : List ℕ) (owner : Option Span) :
    let held := before ++ (path, file) :: after
    reach (localTarget (functionsOf held) path) multiplicity owner =
      reach file.localIndex (((slices multiplicity 0 held).lookup path).getD []) owner := by
  have found : (slices multiplicity 0 (before ++ (path, file) :: after)).lookup path =
      some ((multiplicity.drop (functionsOf before).length).take file.functions.length) := by
    rw [slices_append, slices, Nat.zero_add]
    rw [← slices_paths multiplicity 0, slices_append, slices, Nat.zero_add] at distinct
    exact (lookup_iff_mem distinct).mpr (by simp)
  intro held
  rw [found]
  cases owner with
  | none => rfl
  | some span =>
    unfold reach
    rw [Option.bind_some, localTarget_eq distinct, Option.bind_some]
    cases found : file.localIndex span with
    | none => rfl
    | some index =>
      obtain ⟨small, -⟩ := findIdx?_eq_some_iff_getElem.mp found
      simp [getElem?_take_of_lt small, Nat.add_comm]

end

variable [DecidableEq Y]

private theorem linksOf_eq (held : Cache P Y) (distinct : (held.map Prod.fst).Nodup) :
    linksOf held = topologyLinks (symbolsOf held) 0
      (held.map fun entry => entry.2.topology.effective (knownSymbols held)) := by
  -- The files still to come follow those whose functions make up the offset.
  have suffix : ∀ before rest, before ++ rest = held → rest.flatMap (fun entry =>
      links (localTarget (functionsOf held) entry.1) (resolveTarget (functionsOf held) entry.1)
        entry.2.roots entry.2.edges entry.2.callbackEdges) =
      topologyLinks (symbolsOf held) (functionsOf before).length
        (rest.map fun entry => entry.2.topology.effective (knownSymbols held)) := by
    intro before rest whole
    induction rest generalizing before with
    | nil => rfl
    | cons entry rest ih =>
      obtain ⟨path, file⟩ := entry
      have later := ih (before ++ [(path, file)]) (by simpa using whole)
      have local_ := localTarget_eq (whole.symm ▸ distinct)
      rw [whole] at local_
      rw [flatMap_cons, map_cons, topologyLinks, later]
      refine congrArg₂ _ (links_topology (fun span => ?_) (fun target => ?_) fun _ => aim_dropped)
        (congrArg (topologyLinks _ · _) ?_)
      · rw [local_, Option.map_eq_bind]
        rfl
      · cases target with
        | symbol symbol => rfl
        | localSpan span =>
          change localTarget _ _ span = (Option.map _ _).bind _
          rw [local_, Option.bind_map, Option.map_eq_bind]
          rfl
      · simp [functionsOf, ReachabilityTopology.effective, CachedReachabilityFile.topology]
  exact suffix [] held rfl

def shape (symbols : List Y) (held : Cache P Y) : List (P × ReachabilityTopology Y) :=
  held.map fun entry => (entry.1, entry.2.topology.effective symbols)

private theorem assembly_alike {held other : Cache P Y} (distinct : (held.map Prod.fst).Nodup)
    (alike : shape (knownSymbols held) other = shape (knownSymbols held) held) :
    symbolsOf other = symbolsOf held ∧ graphOf other = graphOf held ∧
      ∀ multiplicity, slices multiplicity 0 other = slices multiplicity 0 held := by
  have paths : other.map Prod.fst = held.map Prod.fst := by
    simpa [shape, Function.comp_def] using congrArg (map Prod.fst) alike
  have topologies := congrArg (map Prod.snd) alike
  simp only [shape, map_map, Function.comp_def] at topologies
  have symbols : symbolsOf other = symbolsOf held := by
    have own : ∀ list : Cache P Y, symbolsOf list = (list.map fun entry =>
        entry.2.topology.effective (knownSymbols held)).flatMap (·.functionSymbols) := by
      intro list
      simp [symbolsOf, functionsOf, map_flatMap, flatMap_map, Function.comp_def,
        ReachabilityTopology.effective, CachedReachabilityFile.topology]
    rw [own, own, topologies]
  have known : knownSymbols other = knownSymbols held := by rw [knownSymbols, symbols, knownSymbols]
  have linked : linksOf other = linksOf held := by
    rw [linksOf_eq _ distinct, linksOf_eq _ (paths ▸ distinct), known, symbols, topologies]
  have size : (functionsOf other).length = (functionsOf held).length := by
    simpa [symbolsOf] using congrArg length symbols
  refine ⟨symbols, by rw [graphOf, graphOf, linked, size], fun multiplicity => ?_⟩
  generalize 0 = offset
  clear paths topologies symbols known linked size distinct
  generalize knownSymbols held = symbols at alike
  induction held generalizing other offset with
  | nil => rw [map_eq_nil_iff.mp alike]
  | cons entry held ih =>
    obtain ⟨first, rest, rfl, same, later⟩ := map_eq_cons_iff.mp alike
    obtain ⟨path, topology⟩ := Prod.mk.inj same
    have count := congrArg (fun topology => topology.functionSymbols.length) topology
    simp only [ReachabilityTopology.effective, CachedReachabilityFile.topology, length_map] at count
    rw [slices, slices, path, count, ih _ later]

end

section

variable [LinearOrder P]

private theorem map_eq_of_lookup {ι V W : Type*} {name : ι → P} {view : V → W} {give : ι → W}
    {table : List (P × V)} {items : List ι} (distinct : (items.map name).Nodup)
    (keys : table.map Prod.fst = items.map name)
    (agree : ∀ item ∈ items, ∃ value, table.lookup (name item) = some value ∧
      view value = give item) : table.map (fun entry => (entry.1, view entry.2)) =
      items.map fun item => (name item, give item) := by
  induction items generalizing table with
  | nil => rw [map_eq_nil_iff.mp keys]; rfl
  | cons item items ih =>
    obtain ⟨⟨key, value⟩, rest, rfl, rfl, later⟩ := map_eq_cons_iff.mp keys
    obtain ⟨apart, distinct⟩ := nodup_cons.mp distinct
    obtain ⟨_, found, same⟩ := agree item mem_cons_self
    rw [lookup_cons_self, Option.some.injEq] at found
    rw [map_cons, map_cons, found, same, ih distinct later fun other member => ?_]
    have differ : name other ≠ name item := fun same => apart (same ▸ mem_map_of_mem member)
    simpa [lookup_cons, beq_false_of_ne differ] using agree other (mem_cons_of_mem _ member)

variable {file : Listed P Y} {cache : Cache P Y}

private theorem Listed.fragment_reused
    {previous : CachedReachabilityFile Y} (found : cache.lookup file.path = some previous)
    (reused : file.reusable cache) : file.fragment cache = previous := by
  simp_all [Listed.reusable, Listed.fragment]

variable [DecidableEq Y] (pathCounts : Graph → List ℕ)

private theorem Listed.fragment_alike {symbols : List Y}
    (alike : file.reusable cache = false → file.sameTopology cache symbols) :
    ∃ previous, cache.lookup file.path = some previous ∧
      previous.topology.effective symbols = (file.fragment cache).topology.effective symbols := by
  cases reused : file.reusable cache with
  | true =>
    obtain ⟨previous, found⟩ := Option.isSome_iff_exists.mp (Bool.and_eq_true_iff.mp reused).2
    exact ⟨previous, found, by rw [fragment_reused found reused]⟩
  | false =>
    obtain ⟨previous, found, same⟩ := (Option.any_eq_true _ _).mp (alike reused)
    refine ⟨previous, found, (of_decide_eq_true same).trans ?_⟩
    have discovered : file.fragment cache = file.discovered := by
      simp_all [Listed.reusable, Listed.fragment]
    rw [discovered]

structure Settled (state : State P Y) : Prop where
  ordered : (state.files.map Prod.fst).Pairwise (· < ·)
  multiplicity : state.multiplicityByPath = slices (pathCounts (graphOf state.files)) 0 state.files
  symbols : state.functionSymbols = knownSymbols state.files
  calls : state.calls = patchedCalls state.files state.multiplicityByPath

private theorem settled_assemble {files : Cache P Y} (ordered : (files.map Prod.fst).Pairwise (· < ·)) :
    Settled pathCounts (assemble pathCounts files) where
  ordered := ordered
  multiplicity := rfl
  symbols := rfl
  calls := by
    funext path
    change (files.lookup path).elim _ _ = (files.lookup path).elim _ _
    cases found : files.lookup path with
    | none => rfl
    | some file =>
      obtain ⟨before, after, split, -⟩ := lookup_eq_some_iff.mp found
      have distinct := ordered.imp ne_of_lt
      rw [split] at distinct
      have reach := funext (reach_slice distinct (pathCounts (graphOf files)))
      rw [← split] at reach
      exact congrArg file.callRows reach

private theorem step_settled {state : State P Y} (build : Build P Y) (settled : Settled pathCounts state) :
    Settled pathCounts (reachableCallMultiplicityIncremental pathCounts state build) := by
  unfold reachableCallMultiplicityIncremental
  extract_lets removed multiplicityByPath recomputed topologyUnchanged files
  have paths : files.map Prod.fst = build.paths := by simp [files, Build.paths, Function.comp_def]
  split
  · rename_i kept
    obtain ⟨⟨-, gone⟩, same⟩ := And.imp_left (Bool.and_eq_true_iff.mp)
      (Bool.and_eq_true_iff.mp (Bool.and_eq_true_iff.mp kept).1)
    have none_removed : removed = [] := List.isEmpty_iff.mp gone
    have alike : ∀ file ∈ build.files, ∃ previous, state.files.lookup file.path = some previous ∧
        previous.topology.effective state.functionSymbols =
          (file.fragment state.files).topology.effective state.functionSymbols :=
      fun file member => Listed.fragment_alike fun fresh =>
        all_eq_true.mp same file (mem_filter.mpr ⟨member, by simp [fresh]⟩)
    have keys : state.files.map Prod.fst = build.paths := by
      refine settled.ordered.eq_of_mem_iff build.ordered fun path => ⟨fun held => ?_, fun listed => ?_⟩
      · by_contra outside
        exact filter_eq_nil_iff.mp none_removed path held (decide_eq_true outside)
      · obtain ⟨file, member, rfl⟩ := mem_map.mp listed
        obtain ⟨previous, found, -⟩ := alike file member
        exact mem_map_of_mem ((lookup_iff_mem (settled.ordered.imp ne_of_lt)).mp found)
    have shapes : shape (knownSymbols state.files) files =
        shape (knownSymbols state.files) state.files := by
      rw [settled.symbols] at alike
      rw [shape, shape, map_eq_of_lookup (build.ordered.imp ne_of_lt) keys alike, map_map]
      rfl
    have counts : multiplicityByPath = state.multiplicityByPath := by
      refine filter_eq_self.mpr fun entry member => decide_eq_true ?_
      rw [settled.multiplicity] at member
      have listed := mem_map_of_mem (f := Prod.fst) member
      rwa [slices_paths, keys] at listed
    obtain ⟨symbols, graph, sliced⟩ := assembly_alike (settled.ordered.imp ne_of_lt) shapes
    refine ⟨paths ▸ build.ordered, ?_, ?_, ?_⟩
    · dsimp only
      rw [counts, settled.multiplicity, graph, sliced]
    · dsimp only
      rw [settled.symbols, knownSymbols, ← symbols, knownSymbols]
    · funext path
      dsimp only
      split
      · rfl
      · rename_i still
        have unmoved : files.lookup path = state.files.lookup path := by
          by_cases listed : path ∈ build.paths
          · obtain ⟨file, member, rfl⟩ := mem_map.mp listed
            obtain ⟨previous, found, -⟩ := alike file member
            have reused : file.reusable state.files := by
              by_contra fresh
              exact still (mem_map_of_mem (mem_filter.mpr ⟨member, by simpa using fresh⟩))
            rw [found, lookup_iff_mem (paths ▸ build.ordered.imp ne_of_lt),
              ← Listed.fragment_reused found reused]
            exact mem_map_of_mem member
          · rw [lookup_absent (paths ▸ listed), lookup_absent (keys ▸ listed)]
        rw [none_removed, if_neg not_mem_nil, settled.calls, counts, patchedCalls, patchedCalls,
          unmoved]
  · exact settled_assemble pathCounts (paths ▸ build.ordered)

def State.empty : State P Y := ⟨[], [], fun _ => [], []⟩

def Build.holding (build : Build P Y) (cache : Cache P Y) : Build P Y where
  files := build.files.map fun file =>
    { file with discovered := (cache.lookup file.path).getD file.discovered }
  ordered := by simpa [Function.comp_def] using build.ordered

private theorem run_settled (builds : List (Build P Y)) : Settled pathCounts
    (builds.foldl (reachableCallMultiplicityIncremental pathCounts) .empty) := by
  induction builds using List.reverseRecOn with
  | nil => exact settled_assemble pathCounts .nil
  | append_singleton builds build ih =>
    rw [foldl_append]
    exact step_settled pathCounts build ih

private theorem files_step (state : State P Y) (build : Build P Y) :
    (reachableCallMultiplicityIncremental pathCounts state build).files =
      build.files.map fun file => (file.path, file.fragment state.files) := by
  unfold reachableCallMultiplicityIncremental
  dsimp only
  split <;> rfl

/-- The kept call table is the one that a build with no cache computes from the same fragments. -/
theorem incremental_is_fresh (builds : List (Build P Y)) (build : Build P Y) :
    let state := (builds ++ [build]).foldl (reachableCallMultiplicityIncremental pathCounts) .empty
    state.calls = (reachableCallMultiplicityIncremental pathCounts .empty
      (build.holding state.files)).calls := by
  intro state
  have settled := run_settled pathCounts (builds ++ [build])
  have fresh := run_settled pathCounts [build.holding state.files]
  have files : (reachableCallMultiplicityIncremental pathCounts .empty
      (build.holding state.files)).files = state.files := by
    obtain ⟨cache, held⟩ : ∃ cache,
        state.files = build.files.map fun file => (file.path, file.fragment cache) := by
      refine ⟨(builds.foldl (reachableCallMultiplicityIncremental pathCounts) .empty).files, ?_⟩
      rw [← files_step pathCounts]
      exact congrArg State.files (foldl_concat ..)
    rw [files_step, Build.holding, map_map]
    conv_rhs => rw [held]
    refine map_congr_left fun file member => ?_
    have found : state.files.lookup file.path = some (file.fragment cache) := by
      rw [lookup_iff_mem (settled.ordered.imp ne_of_lt), held]
      exact mem_map_of_mem member
    simp [Listed.fragment, State.empty, found]
  change Settled pathCounts (reachableCallMultiplicityIncremental pathCounts .empty _) at fresh
  rw [fresh.calls, fresh.multiplicity, files, settled.calls, settled.multiplicity]

end

def oneFile (callee : Span) : Build ℕ ℕ where
  files := [⟨0, false, ⟨[⟨(0, 9), some 1⟩], [.symbol 1], [], [], [⟨callee, some (0, 9), none⟩]⟩⟩]
  ordered := pairwise_singleton _ _

/-- The second build moves the call. -/
theorem incremental_is_fresh_of_moved :
    let counts (graph : Graph) : List ℕ := graph.edges.map fun _ => 1
    let state := [oneFile (2, 3), oneFile (4, 5)].foldl
      (reachableCallMultiplicityIncremental counts) .empty
    state.calls = (reachableCallMultiplicityIncremental counts .empty
      ((oneFile (4, 5)).holding state.files)).calls :=
  incremental_is_fresh _ [oneFile (2, 3)] (oneFile (4, 5))

end SolidChecker.Reachability
