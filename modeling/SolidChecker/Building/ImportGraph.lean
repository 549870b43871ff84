/- source: apps/solid-typefacts/src/import_graph.rs -/

import SolidChecker.Foundation.Closure
import SolidChecker.Foundation.Table
import SolidChecker.Producer.Path

namespace SolidChecker.Building

open Foundation List
open Foundation.Closure (Reaches Step Walk closeUnder)
open Producer (Path)

structure SourceFile (H : Type) where
  fileName : Path
  isDeclarationFile : Bool
  isExternalModule : Bool
  hasGlobalOrModuleAugmentation : Bool
  imports : List (Option Path)
  text : H
  deriving DecidableEq

structure Program (H D : Type) where
  sourceFiles : List (SourceFile H)
  getSourceFile : Path → Option (SourceFile H)
  declarationShape : Path → Option D
  exportedSymbols : SourceFile H → Bool

variable {H D : Type}

def moduleEdges (file : SourceFile H) : List Path :=
  file.imports.filterMap fun resolved => resolved.map Path.clean

abbrev Reverse := Finmap fun _ : Path => List Path

structure ImportGraph where
  forward : Finmap fun _ : Path => List Path
  reverse : Reverse

namespace ImportGraph

def empty : ImportGraph := ⟨∅, ∅⟩

def link (importer : Path) (reverse : Reverse) (dependency : Path) : Reverse :=
  let importers := (reverse.lookup dependency).getD []
  reverse.insert dependency (if importer ∈ importers then importers else importers ++ [importer])

def addFile (graph : ImportGraph) (file : SourceFile H) : ImportGraph :=
  if file.isDeclarationFile then graph
  else
    let importer := file.fileName.clean
    let edges := moduleEdges file
    ⟨if edges = [] then graph.forward else graph.forward.insert importer edges,
      edges.foldl (link importer) graph.reverse⟩

def rebuild (program : Program H D) : ImportGraph := program.sourceFiles.foldl addFile empty

def edgesUnchanged (graph : ImportGraph) (program : Program H D) (path : Path) : Bool :=
  match program.getSourceFile path.clean with
  | none => false
  | some edited =>
    !edited.isDeclarationFile &&
      decide (moduleEdges edited = (graph.forward.lookup path.clean).getD [])

end ImportGraph

section

def Program.Imports (program : Program H D) (dependency importer : Path) : Prop :=
  ∃ file ∈ program.sourceFiles, file.isDeclarationFile = false ∧ file.fileName.clean = importer ∧
    dependency ∈ moduleEdges file

def Reverse.Links (reverse : Reverse) (dependency importer : Path) : Prop :=
  importer ∈ (reverse.lookup dependency).getD []

def ImportGraph.Linked (graph : ImportGraph) : Prop :=
  ∀ importer, ∀ dependency ∈ (graph.forward.lookup importer).getD [],
    graph.reverse.Links dependency importer

variable {graph : ImportGraph} {reverse : Reverse} {dependency importer other path : Path}

private theorem links_link : (ImportGraph.link other reverse path).Links dependency importer ↔
    reverse.Links dependency importer ∨ dependency = path ∧ importer = other := by
  unfold Reverse.Links ImportGraph.link
  by_cases same : dependency = path
  · subst same
    rw [Finmap.lookup_insert, Option.getD_some]
    split
    · rename_i held
      exact ⟨.inl, fun either => either.elim id fun ⟨_, one⟩ => one ▸ held⟩
    · simp
  · rw [Finmap.lookup_insert_of_ne _ same]
    simp [same]

private theorem links_addFile (file : SourceFile H) :
    (graph.addFile file).reverse.Links dependency importer ↔
      graph.reverse.Links dependency importer ∨ file.isDeclarationFile = false ∧
        file.fileName.clean = importer ∧ dependency ∈ moduleEdges file := by
  have fold : ∀ (edges : List Path) (reverse : Reverse),
      (edges.foldl (ImportGraph.link file.fileName.clean) reverse).Links dependency importer ↔
        reverse.Links dependency importer ∨ file.fileName.clean = importer ∧ dependency ∈ edges := by
    intro edges
    induction edges with
    | nil => simp
    | cons edge edges ih =>
      intro reverse
      rw [foldl_cons, ih, links_link, mem_cons]
      tauto
  unfold ImportGraph.addFile
  split
  · rename_i declares
    simp [declares]
  · rename_i own
    dsimp only
    rw [fold, Bool.eq_false_iff.mpr own]
    simp

private theorem linked_addFile (linked : graph.Linked) (file : SourceFile H) :
    (graph.addFile file).Linked := by
  intro importer dependency edge
  rw [links_addFile]
  unfold ImportGraph.addFile at edge
  split at edge
  · exact .inl (linked importer dependency edge)
  · rename_i own
    dsimp only at edge
    split at edge
    · exact .inl (linked importer dependency edge)
    · by_cases same : importer = file.fileName.clean
      · rw [same, Finmap.lookup_insert] at edge
        exact .inr ⟨Bool.eq_false_iff.mpr own, same.symm, edge⟩
      · rw [Finmap.lookup_insert_of_ne _ same] at edge
        exact .inl (linked importer dependency edge)

theorem rebuild_spec (program : Program H D) : (ImportGraph.rebuild program).Linked ∧
    ∀ dependency importer, (ImportGraph.rebuild program).reverse.Links dependency importer ↔
      program.Imports dependency importer := by
  have fold : ∀ (files : List (SourceFile H)) (graph : ImportGraph), graph.Linked →
      (files.foldl ImportGraph.addFile graph).Linked ∧ ∀ dependency importer,
        ((files.foldl ImportGraph.addFile graph).reverse.Links dependency importer ↔
          graph.reverse.Links dependency importer ∨ ∃ file ∈ files, file.isDeclarationFile = false ∧
            file.fileName.clean = importer ∧ dependency ∈ moduleEdges file) := by
    intro files
    induction files with
    | nil => simp
    | cons file files ih =>
      intro graph linked
      obtain ⟨kept, links⟩ := ih _ (linked_addFile linked file)
      refine ⟨kept, fun dependency importer => ?_⟩
      rw [foldl_cons, links, links_addFile, or_assoc]
      simp
  obtain ⟨linked, links⟩ := fold program.sourceFiles ImportGraph.empty
    (fun importer dependency edge => nomatch edge)
  refine ⟨linked, fun dependency importer => (links dependency importer).trans ?_⟩
  simp [ImportGraph.empty, Reverse.Links, Program.Imports]

end

def importersOf (graphs : List Reverse) (dependency : Path) : List Path :=
  graphs.flatMap fun graph => (graph.lookup dependency).getD []

def walkCarrier (changed : List Path) (graphs : List Reverse) : Finset Path :=
  graphs.foldl (fun met graph => met ∪ graph.keys.biUnion fun dependency =>
    ((graph.lookup dependency).getD []).toFinset) (changed.map Path.clean).toFinset

/-- The changed files and what imports them, to a fixed point. The order is left open, so a stack
does for the queue. -/
def affectedFromReverseDeps (changed : List Path) (graphs : List Reverse) : Finset Path :=
  (closeUnder (importersOf graphs) ((walkCarrier changed graphs).card + 1)
    ((changed.map Path.clean).foldl Walk.push ⟨[], ∅⟩)).getD ∅

def globalScopeChange (changed : List Path) (programs : List (Program H D)) : Bool :=
  changed.any fun path => programs.any fun program =>
    (program.getSourceFile path.clean).any fun file => !file.isExternalModule

def everySourcePath (programs : List (Program H D)) : Finset Path :=
  (programs.flatMap fun program =>
    program.sourceFiles.map fun file => file.fileName.clean).toFinset

section

private theorem mem_foldl_union {α β : Type*} [DecidableEq β] (sets : α → Finset β) (items : List α)
    (start : Finset β) (x : β) : x ∈ items.foldl (fun met item => met ∪ sets item) start ↔
      x ∈ start ∨ ∃ item ∈ items, x ∈ sets item := by
  induction items generalizing start with
  | nil => simp
  | cons item items ih =>
    simp only [foldl_cons, ih, Finset.mem_union, mem_cons, exists_eq_or_imp, or_assoc]

private theorem importersOf_inside (changed : List Path) (graphs : List Reverse) {dependency importer : Path}
    (edge : importer ∈ importersOf graphs dependency) : importer ∈ walkCarrier changed graphs := by
  obtain ⟨graph, member, held⟩ := mem_flatMap.mp edge
  refine (mem_foldl_union _ graphs _ importer).mpr (.inr ⟨graph, member, ?_⟩)
  refine Finset.mem_biUnion.mpr ⟨dependency, ?_, mem_toFinset.mpr held⟩
  rw [Table.mem_keys_iff]
  intro missing
  rw [missing] at held
  exact nomatch held

theorem mem_affected (changed : List Path) (graphs : List Reverse) (path : Path) :
    path ∈ affectedFromReverseDeps changed graphs ↔
      ∃ origin ∈ changed, Reaches (importersOf graphs) origin.clean path := by
  obtain ⟨seen, returned, met⟩ := Closure.closeUnder_seeds (importersOf graphs)
    (walkCarrier changed graphs) (fun _ _ _ => importersOf_inside changed graphs)
    (changed.map .clean)
    (fun path member => (mem_foldl_union _ graphs _ path).mpr (.inl (mem_toFinset.mpr member)))
    ∅ (Finset.empty_subset _) (fun _ member => nomatch member)
    (Nat.lt_succ_self (walkCarrier changed graphs).card)
  unfold affectedFromReverseDeps
  rw [returned, Option.getD_some, met]
  simp only [Finset.notMem_empty, false_or, mem_map, exists_exists_and_eq_and]

end

end SolidChecker.Building
