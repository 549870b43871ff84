/- source: apps/solid-typefacts/src/gocompat.rs, typefacts/src/producer/manifest.rs -/

import Mathlib.Data.Char
import Mathlib.Data.List.Lex
import Mathlib.Logic.Relation

namespace SolidChecker.Producer

open List Relation

abbrev Path := List Char

namespace Path

instance lawful : LawfulBEq Path := inferInstance

instance trans : IsTrans Path (· ≤ ·) := inferInstance

instance antisymm : Std.Antisymm fun first second : Path => first ≤ second := inferInstance

instance total : Std.Total fun first second : Path => first ≤ second := inferInstance

variable (path : Path)

def elements : List Path := List.splitOn '/' path

def rooted : Path → Bool
  | '/' :: _ => true
  | _ => false

def cleanElement (rooted : Bool) (parts : List Path) (element : Path) : List Path :=
  if element = [] ∨ element = ['.'] then parts
  else if element = ['.', '.'] then
    match parts with
    | last :: before =>
      if last ≠ ['.', '.'] then before
      else if rooted then parts else element :: parts
    | [] => if rooted then parts else element :: parts
  else element :: parts

def cleanGeneral : Path :=
  if path = [] then ['.']
  else
    let parts := (path.elements.foldl (cleanElement path.rooted) []).reverse
    let joined := ['/'].intercalate parts
    if path.rooted then '/' :: joined
    else if joined = [] then ['.'] else joined

def cleanElements (leading : Bool) : List Path → Bool
  | [] => true
  | element :: later =>
    if element = [] ∨ element = ['.'] then false
    else if element = ['.', '.'] then leading && cleanElements leading later
    else cleanElements false later

def isClean : Bool :=
  if path = ['/'] ∨ path = ['.'] then true
  else
    let body : Path := if path.rooted then path.tail else path
    if body = [] then false else cleanElements (!path.rooted) body.elements

def clean : Path := if path.isClean then path else path.cleanGeneral

def hex (width code : ℕ) : List Char :=
  let digits := Nat.toDigits 16 code
  List.replicate (width - digits.length) '0' ++ digits

def unprintable (code : ℕ) : Bool :=
  decide (code < 0x20) || decide (0x7f ≤ code ∧ code ≤ 0xa0) || decide (code = 0x1680) ||
    decide (0x2000 ≤ code ∧ code ≤ 0x200a) || [0x2028, 0x2029, 0x202f, 0x205f, 0x3000].contains code

def quoteChar (char : Char) : List Char :=
  let code := char.toNat
  let named := [(34, '"'), (92, '\\'), (7, 'a'), (8, 'b'), (12, 'f'), (10, 'n'), (13, 'r'), (9, 't'),
    (11, 'v')]
  match named.lookup code with
  | some escape => ['\\', escape]
  | none =>
    if unprintable code then
      if code < 0x80 then ['\\', 'x'] ++ hex 2 code
      else if code < 0x10000 then ['\\', 'u'] ++ hex 4 code
      else ['\\', 'U'] ++ hex 8 code
    else [char]

def quote : String := String.ofList (['"'] ++ path.flatMap quoteChar ++ ['"'])

private theorem cleanElements_cons_iff (leading : Bool) (element : Path) (later : List Path) :
    cleanElements leading (element :: later) ↔ (element ≠ [] ∧ element ≠ ['.']) ∧
      (element = ['.', '.'] → leading) ∧
      cleanElements (leading && decide (element = ['.', '.'])) later := by
  by_cases skipped : element = [] ∨ element = ['.']
  · rcases skipped with rfl | rfl <;> simp [cleanElements]
  · obtain ⟨nonempty, named⟩ := not_or.mp skipped
    by_cases parent : element = ['.', '.']
    · cases leading <;> simp [cleanElements, parent]
    · simp [cleanElements, nonempty, named, parent]

variable {leading : Bool}

private theorem cleanElements_snoc_iff (parts : List Path) (element : Path) :
    cleanElements leading (parts ++ [element]) ↔ cleanElements leading parts ∧
      (element ≠ [] ∧ element ≠ ['.']) ∧
      (element = ['.', '.'] → leading ∧ ∀ part ∈ parts, part = ['.', '.']) := by
  induction parts generalizing leading with
  | nil => simp [cleanElements, imp_iff_not_or]
  | cons first parts ih =>
    rw [cons_append, cleanElements_cons_iff, cleanElements_cons_iff, ih, forall_mem_cons,
      Bool.and_eq_true, decide_eq_true_eq]
    tauto

private def Kept (rooted : Bool) (parts : List Path) : Prop :=
  cleanElements (!rooted) parts.reverse = true ∧ ∀ part ∈ parts, '/' ∉ part

private theorem kept_nil (rooted : Bool) : Kept rooted [] := ⟨by simp [cleanElements], by simp⟩

private theorem cleanElement_kept {rooted : Bool} {parts : List Path} {element : Path}
    (kept : Kept rooted parts) (whole : '/' ∉ element) :
    Kept rooted (cleanElement rooted parts element) := by
  obtain ⟨clean, wholes⟩ := kept
  have pushed : ∀ part ∈ element :: parts, '/' ∉ part :=
    forall_mem_cons.mpr ⟨whole, wholes⟩
  unfold cleanElement
  split
  · exact ⟨clean, wholes⟩
  · rename_i skipped
    obtain ⟨nonempty, named⟩ := not_or.mp skipped
    split
    · rename_i parent
      subst parent
      cases parts with
      | nil => cases rooted <;> simp [Kept, cleanElements]
      | cons last before =>
        rw [reverse_cons] at clean
        by_cases child : last ≠ ['.', '.']
        · simp only [ne_eq, child, not_false_eq_true, if_true]
          exact ⟨((cleanElements_snoc_iff _ _).mp clean).1,
            fun part member => wholes part (mem_cons_of_mem _ member)⟩
        · obtain rfl := not_not.mp child
          cases rooted with
          | true => simpa using ⟨by rw [reverse_cons]; exact clean, wholes⟩
          | false =>
            obtain ⟨-, plain, up⟩ := (cleanElements_snoc_iff _ _).mp clean
            refine ⟨?_, by simpa using pushed⟩
            simpa using (cleanElements_snoc_iff _ _).mpr ⟨clean, plain, fun _ =>
              ⟨rfl, by simpa [or_imp, forall_and] using (up rfl).2⟩⟩
    · rename_i child
      refine ⟨?_, pushed⟩
      rw [reverse_cons]
      exact (cleanElements_snoc_iff _ _).mpr ⟨clean, ⟨nonempty, named⟩, fun up => absurd up child⟩

private theorem foldl_kept (rooted : Bool) (elements parts : List Path) (kept : Kept rooted parts)
    (wholes : ∀ element ∈ elements, '/' ∉ element) :
    Kept rooted (elements.foldl (cleanElement rooted) parts) := by
  induction elements generalizing parts with
  | nil => exact kept
  | cons element elements ih =>
    rw [foldl_cons]
    refine ih _ (cleanElement_kept kept (wholes element mem_cons_self)) fun other member => ?_
    exact wholes other (mem_cons_of_mem _ member)

private theorem elements_whole : ∀ element ∈ path.elements, '/' ∉ element := by
  unfold elements
  induction path with
  | nil => simp
  | cons char path ih =>
    rw [splitOn_cons_eq_if_modifyHead]
    split
    · exact forall_mem_cons.mpr ⟨not_mem_nil, ih⟩
    · rename_i other
      generalize List.splitOn '/' path = rest at ih
      cases rest with
      | nil => simp
      | cons first later =>
        obtain ⟨head, tail⟩ := forall_mem_cons.mp ih
        refine forall_mem_cons.mpr ⟨?_, tail⟩
        simp only [beq_iff_eq] at other
        exact not_mem_cons_of_ne_of_not_mem (Ne.symm other) head

private def parts : List Path :=
  (path.elements.foldl (cleanElement path.rooted) []).reverse

private theorem parts_clean : cleanElements (!path.rooted) path.parts :=
  (foldl_kept path.rooted path.elements [] (kept_nil path.rooted) (elements_whole path)).1

private theorem parts_whole : ∀ part ∈ path.parts, '/' ∉ part := fun part member =>
  (foldl_kept path.rooted path.elements [] (kept_nil path.rooted) (elements_whole path)).2 part
    (mem_reverse.mp member)

private theorem elements_joined (some : path.parts ≠ []) :
    elements (['/'].intercalate path.parts) = path.parts :=
  splitOn_intercalate '/' (parts_whole path) some

private theorem joined_cons (some : path.parts ≠ []) :
    ∃ char rest, ['/'].intercalate path.parts = char :: rest ∧ char ≠ '/' := by
  have clean := parts_clean path
  have whole := parts_whole path
  generalize path.parts = parts at *
  cases parts with
  | nil => exact absurd rfl some
  | cons first later =>
    rw [cleanElements_cons_iff] at clean
    obtain ⟨char, rest, rfl⟩ := exists_cons_of_ne_nil clean.1.1
    have apart : char ≠ '/' := fun same => whole _ mem_cons_self (by simp [same])
    cases later with
    | nil => exact ⟨char, rest, by simp, apart⟩
    | cons second later => exact ⟨char, _, by rw [intercalate_cons_cons]; rfl, apart⟩

def written (rooted : Bool) (parts : List Path) : Path :=
  let joined := ['/'].intercalate parts
  if rooted then '/' :: joined else if joined = [] then ['.'] else joined

private theorem cleanGeneral_eq : path.cleanGeneral = written path.rooted path.parts := by
  by_cases none : path = []
  · rw [none]
    rfl
  · rw [cleanGeneral, if_neg none]
    rfl

private theorem isClean_cleanGeneral : path.cleanGeneral.isClean := by
  rw [cleanGeneral_eq, written]
  have clean := parts_clean path
  by_cases empty : path.parts = []
  · cases path.rooted <;> simp [empty, isClean]
  · obtain ⟨char, rest, joined, apart⟩ := joined_cons path empty
    have split := elements_joined path empty
    rw [joined] at split ⊢
    have unrooted : rooted (char :: rest) = false := by
      unfold rooted
      split
      · rename_i same
        exact absurd (List.cons.inj same).1 apart
      · rfl
    cases root : path.rooted with
    | true =>
      have under : cleanElements false path.parts = true := by simpa [root] using clean
      simp [isClean, rooted, split, under]
    | false =>
      have relative : cleanElements true path.parts = true := by simpa [root] using clean
      simp [isClean, unrooted, split, relative]

@[simp] theorem clean_clean : path.clean.clean = path.clean := by
  have settled : path.clean.isClean := by
    unfold clean
    split
    · assumption
    · exact isClean_cleanGeneral path
  rw [clean, if_pos settled]

section

variable {parts : List Path}

private theorem foldl_of_clean {rooted : Bool} (clean : cleanElements leading parts)
    (relative : leading → rooted = false) (before : List Path)
    (parents : leading → ∀ part ∈ before, part = ['.', '.']) :
    parts.foldl (cleanElement rooted) before = parts.reverse ++ before := by
  induction parts generalizing leading before with
  | nil => rfl
  | cons element later ih =>
    obtain ⟨⟨nonempty, named⟩, parent, rest⟩ := (cleanElements_cons_iff _ _ _).mp clean
    have pushed : cleanElement rooted before element = element :: before := by
      unfold cleanElement
      rw [if_neg (not_or.mpr ⟨nonempty, named⟩)]
      split
      · rename_i up
        cases before with
        | nil => simp [relative (parent up)]
        | cons last before => simp [parents (parent up) last mem_cons_self, relative (parent up)]
      · rfl
    rw [foldl_cons, pushed, ih rest (fun more => relative (by simp_all)) _ ?_, reverse_cons,
      append_assoc, singleton_append]
    intro more
    simp only [Bool.and_eq_true, decide_eq_true_eq] at more
    exact forall_mem_cons.mpr ⟨more.2, parents more.1⟩

private theorem cleanGeneral_of_isClean (clean : path.isClean) : path.cleanGeneral = path := by
  by_cases whole : path = ['/'] ∨ path = ['.']
  · rcases whole with rfl | rfl <;> decide
  · rw [isClean, if_neg whole] at clean
    rw [cleanGeneral_eq, Path.parts, written]
    cases root : path.rooted with
    | false =>
      have some : path ≠ [] := by rintro rfl; cases clean
      have relative : cleanElements true path.elements := by simpa [root, some] using clean
      rw [foldl_of_clean relative (fun _ => rfl) [] (by simp)]
      simp [elements, intercalate_splitOn, some]
    | true =>
      obtain ⟨body, rfl⟩ : ∃ body, path = '/' :: body := by
        unfold rooted at root
        split at root
        · exact ⟨_, rfl⟩
        · cases root
      have some : body ≠ [] := by rintro rfl; simp at whole
      have under : cleanElements false (elements body) := by simpa [root, some] using clean
      have split : elements ('/' :: body) = [] :: elements body := by
        simp [elements, splitOn_cons_eq_if_modifyHead]
      have skipped : cleanElement true [] [] = [] := rfl
      rw [split, foldl_cons, skipped, foldl_of_clean under nofun [] nofun]
      simp [elements, intercalate_splitOn]

/-- Elements in normal form: none is empty or `.`, and `..` stands in front only, of a relative
path. -/
def Normal (rooted : Bool) (parts : List Path) : Prop :=
  (∀ part ∈ parts, part ≠ [] ∧ part ≠ ['.']) ∧ ∃ parents rest,
    parts = replicate parents ['.', '.'] ++ rest ∧ ['.', '.'] ∉ rest ∧ (rooted → parents = 0)

private theorem normal_of_clean (clean : cleanElements leading parts) : Normal (!leading) parts := by
  induction parts generalizing leading with
  | nil => exact ⟨nofun, 0, [], rfl, not_mem_nil, fun _ => rfl⟩
  | cons element later ih =>
    obtain ⟨plain, parent, rest⟩ := (cleanElements_cons_iff _ _ _).mp clean
    obtain ⟨plains, parents, names, rfl, inner, front⟩ := ih rest
    refine ⟨forall_mem_cons.mpr ⟨plain, plains⟩, ?_⟩
    by_cases up : element = ['.', '.']
    · exact ⟨parents + 1, names, by rw [up]; rfl, inner, by simp [parent up]⟩
    · obtain rfl := front (by simp [up])
      exact ⟨0, element :: names, rfl, by simpa [Ne.symm up] using inner, fun _ => rfl⟩

/-- The rules of lexical normalization: an empty element, a `.`, an element with the `..` after
it, and a `..` that begins a rooted path are dropped. -/
inductive Drops (rooted : Bool) : List Path → List Path → Prop
  | empty (before after) : Drops rooted (before ++ [] :: after) (before ++ after)
  | dot (before after) : Drops rooted (before ++ ['.'] :: after) (before ++ after)
  | parent (before after) {name : Path} (plain : name ≠ [] ∧ name ≠ ['.'] ∧ name ≠ ['.', '.']) :
      Drops rooted (before ++ name :: ['.', '.'] :: after) (before ++ after)
  | root (after) (here : rooted) : Drops rooted (['.', '.'] :: after) after

private theorem cleanElement_drops {rooted : Bool} {element : Path} (kept : Kept rooted parts)
    (later : List Path) : ReflTransGen (Drops rooted) (parts.reverse ++ element :: later)
      ((cleanElement rooted parts element).reverse ++ later) := by
  obtain ⟨plain, parents, rest, split, inner, front⟩ := normal_of_clean kept.1
  rw [Bool.not_not] at front
  unfold cleanElement
  split
  · rename_i skipped
    rcases skipped with rfl | rfl
    · exact .single (.empty _ _)
    · exact .single (.dot _ _)
  · split
    · rename_i up
      subst up
      cases parts with
      | nil =>
        cases rooted with
        | true => exact .single (.root _ rfl)
        | false => exact .refl
      | cons last before =>
        by_cases child : last ≠ ['.', '.']
        · dsimp only
          rw [if_pos child, reverse_cons, append_assoc, singleton_append]
          obtain ⟨nonempty, named⟩ := plain last (by simp)
          exact .single (.parent _ _ ⟨nonempty, named, child⟩)
        · obtain rfl := not_not.mp child
          cases rooted with
          | true =>
            obtain rfl := front rfl
            rw [replicate_zero, nil_append] at split
            exact absurd (split ▸ mem_reverse.mpr mem_cons_self) inner
          | false => simpa using ReflTransGen.refl
    · rw [reverse_cons, append_assoc, singleton_append]

private theorem foldl_drops {rooted : Bool} {elements : List Path} (kept : Kept rooted parts)
    (wholes : ∀ element ∈ elements, '/' ∉ element) :
    ReflTransGen (Drops rooted) (parts.reverse ++ elements)
      (elements.foldl (cleanElement rooted) parts).reverse := by
  induction elements generalizing parts with
  | nil => rw [append_nil]; rfl
  | cons element later ih =>
    obtain ⟨whole, others⟩ := forall_mem_cons.mp wholes
    exact (cleanElement_drops kept later).trans (ih (cleanElement_kept kept whole) others)

end

/-- The scan and the rewriting agree, a path is clean exactly if it is rewritten to itself,
cleaning twice is cleaning once, and what it gives is what the rules of lexical normalization
leave. -/
theorem clean_is_lexical : path.clean = path.cleanGeneral ∧
    (path.isClean ↔ path.cleanGeneral = path) ∧ path.clean.clean = path.clean ∧
    ∃ parts, path.clean = written path.rooted parts ∧ Normal path.rooted parts ∧
      ReflTransGen (Drops path.rooted) path.elements parts := by
  have same : path.clean = path.cleanGeneral := by
    unfold clean
    split
    · rename_i settled
      exact (cleanGeneral_of_isClean path settled).symm
    · rfl
  refine ⟨same, ⟨cleanGeneral_of_isClean path, fun fixed => ?_⟩, clean_clean path, path.parts, ?_,
    ?_, ?_⟩
  · rw [← fixed]
    exact isClean_cleanGeneral path
  · rw [same, cleanGeneral_eq]
  · simpa using normal_of_clean (parts_clean path)
  · exact foldl_drops (kept_nil path.rooted) (elements_whole path)

end Path

end SolidChecker.Producer
