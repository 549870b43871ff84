/- source: solid-facts/src/ast/suppression.rs -/

import Mathlib.Data.Char
import Mathlib.Data.List.DropRight

namespace SolidChecker.Suppression

open List Option

inductive Origin where
  | eslint
  | solidChecker
deriving DecidableEq, Repr

inductive Action where
  | disable
  | enable
  | disableLine
  | disableNextLine
deriving DecidableEq, Repr

def isWhitespace (character : Char) : Bool :=
  let code := character.toNat
  decide (9 ≤ code ∧ code ≤ 13 ∨ code = 0x20 ∨ code = 0x85 ∨ code = 0xA0 ∨ code = 0x1680 ∨
    0x2000 ≤ code ∧ code ≤ 0x200A ∨ code = 0x2028 ∨ code = 0x2029 ∨ code = 0x202F ∨
    code = 0x205F ∨ code = 0x3000)

def isJsSpace (character : Char) : Bool :=
  isWhitespace character || decide (character.toNat = 0xFEFF)

section

variable (space : Char → Bool)

def trim (text : List Char) : List Char := (text.dropWhile space).rdropWhile space

def afterMark (rest : List Char) : Option (List Char) :=
  if 2 ≤ (rest.takeWhile fun character => decide (character = '-')).length then
    match rest.dropWhile fun character => decide (character = '-') with
    | after :: more => if space after then some more else none
    | [] => none
  else none

def splitJustification : List Char → List Char × List Char
  | [] => ([], [])
  | character :: rest =>
    let later := splitJustification rest
    if space character then
      match afterMark space rest with
      | some justification => ([], justification)
      | none => (character :: later.1, later.2)
    else (character :: later.1, later.2)

def isLower (character : Char) : Bool := decide ('a' ≤ character ∧ character ≤ 'z')

/-- The letters from here on, with each single hyphen before a letter, and what follows them. -/
def labelLoop : List Char → List Char × List Char
  | [] => ([], [])
  | character :: rest =>
    if isLower character || decide (character = '-') && rest.head?.any isLower then
      let later := labelLoop rest
      (character :: later.1, later.2)
    else ([], character :: rest)

def labelOf (directive : List Char) : Option (List Char × List Char) :=
  if directive.head?.any isLower then
    let read := labelLoop directive
    if read.2.head?.all space then some read else none
  else none

def unquote (name : List Char) : List Char :=
  match name.head?, name.getLast? with
  | some first, some last =>
    if (first = '"' ∨ first = '\'') ∧ first = last ∧ 2 ≤ name.length then name.tail.dropLast
    else name
  | _, _ => name

def stripStart (start text : List Char) : Option (List Char) :=
  if start.isPrefixOf text then some (text.drop start.length) else none

def actionOf (text : List Char) : Option Action :=
  if text = "disable".toList then some .disable
  else if text = "enable".toList then some .enable
  else if text = "disable-line".toList then some .disableLine
  else if text = "disable-next-line".toList then some .disableNextLine
  else none

def classify (label : List Char) : Option (Origin × Action) :=
  match stripStart "eslint-".toList label with
  | some action => (actionOf action).map fun action => (.eslint, action)
  | none => (stripStart "solid-checker-".toList label).bind fun action =>
    (actionOf action).map fun action => (.solidChecker, action)

def namesOf (list : List Char) : List (List Char) :=
  ((list.splitOn ',').map fun name => unquote (trim space name)).filter fun name =>
    decide (name ≠ [])

def parseWith (text : List Char) (lineComment : Bool) :
    Option (Origin × Action × List (List Char)) :=
  (labelOf space (trim space (splitJustification space text).1)).bind fun read =>
    (classify read.1).bind fun (origin, action) =>
      if lineComment ∧ ¬ (action = .disableLine ∨ action = .disableNextLine) then none
      else some (origin, action, namesOf space read.2)

end

def parseSuppression (text : List Char) (lineComment : Bool) :
    Option (Origin × Action × List (List Char)) := parseWith isJsSpace text lineComment

/-! ### The documented grammar -/

def esSpace (character : Char) : Bool :=
  let code := character.toNat
  decide (code = 9 ∨ code = 0xB ∨ code = 0xC ∨ code = 0xFEFF ∨ code = 0x20 ∨ code = 0xA0 ∨
    code = 0x1680 ∨ 0x2000 ≤ code ∧ code ≤ 0x200A ∨ code = 0x202F ∨ code = 0x205F ∨
    code = 0x3000 ∨ code = 0xA ∨ code = 0xD ∨ code = 0x2028 ∨ code = 0x2029)

def MarkAfter (text before : List Char) : Prop :=
  ∃ first hyphens last more, text = before ++ first :: (hyphens ++ last :: more) ∧
    esSpace first ∧ 2 ≤ hyphens.length ∧ (∀ hyphen ∈ hyphens, hyphen = '-') ∧ esSpace last

def Cut (text directive : List Char) : Prop :=
  (MarkAfter text directive ∧ ∀ before, before.length < directive.length → ¬ MarkAfter text before) ∨
    directive = text ∧ ∀ before, ¬ MarkAfter text before

inductive Words : List Char → Prop
  | word {word : List Char} : word ≠ [] → (∀ letter ∈ word, isLower letter) → Words word
  | hyphen {word later : List Char} : word ≠ [] → (∀ letter ∈ word, isLower letter) → Words later →
      Words (word ++ '-' :: later)

def originText : Origin → List Char
  | .eslint => "eslint-".toList
  | .solidChecker => "solid-checker-".toList

def actionText : Action → List Char
  | .disable => "disable".toList
  | .enable => "enable".toList
  | .disableLine => "disable-line".toList
  | .disableNextLine => "disable-next-line".toList

def Directive (text : List Char) (lineComment : Bool) (origin : Origin) (action : Action)
    (names : List (List Char)) : Prop :=
  ∃ directive label list, Cut text directive ∧ trim esSpace directive = label ++ list ∧
    Words label ∧ (∀ next ∈ list.head?, esSpace next) ∧ label = originText origin ++ actionText action ∧
    (lineComment → action = .disableLine ∨ action = .disableNextLine) ∧
    names = namesOf esSpace list

variable {character : Char}

private theorem isJsSpace_eq (other : character.toNat ≠ 0x85) :
    isJsSpace character = esSpace character := by
  unfold isJsSpace isWhitespace esSpace
  rw [← Bool.decide_or, decide_eq_decide]
  omega

section

variable {first second : Char → Bool} {text : List Char}

private theorem labelLoop_append (text : List Char) : (labelLoop text).1 ++ (labelLoop text).2 = text := by
  induction text with
  | nil => rfl
  | cons character rest ih =>
    rw [labelLoop]
    split
    · simpa using ih
    · rfl

private theorem mem_of_mem_splitOn {name : List Char}
    (member : name ∈ text.splitOn ',') (inside : character ∈ name) : character ∈ text := by
  obtain ⟨place, held⟩ := mem_iff_getElem?.mp member
  have listed : name ∈ (text.splitOn ',').intersperse [','] :=
    mem_of_getElem? (getElem?_intersperse_two_mul.trans held)
  have whole : [','].intercalate (text.splitOn ',') = text := intercalate_splitOn ','
  exact whole ▸ mem_flatten.mpr ⟨name, listed, inside⟩

variable (same : ∀ character ∈ text, first character = second character)

include same

private theorem takeWhile_space :
    text.takeWhile first = text.takeWhile second ∧ text.dropWhile first = text.dropWhile second := by
  induction text with
  | nil => exact ⟨rfl, rfl⟩
  | cons character rest ih =>
    have here := same character mem_cons_self
    have later := ih fun other member => same other (mem_cons_of_mem _ member)
    simp only [takeWhile_cons, dropWhile_cons, here, later, and_self]

private theorem trim_congr : trim first text = trim second text := by
  have inner : ∀ character ∈ (text.dropWhile second).reverse,
      first character = second character := fun character member =>
    same character ((dropWhile_suffix second).subset (mem_reverse.mp member))
  unfold trim List.rdropWhile
  rw [(takeWhile_space same).2, (takeWhile_space inner).2]

private theorem labelOf_congr : labelOf first text = labelOf second text ∧
    ∀ read ∈ labelOf second text, namesOf first read.2 = namesOf second read.2 := by
  have rest : ∀ character ∈ (labelLoop text).2, first character = second character :=
    fun character member => same character (by
      rw [← labelLoop_append text]
      exact mem_append_right _ member)
  have names : namesOf first (labelLoop text).2 = namesOf second (labelLoop text).2 := by
    unfold namesOf
    congr 1
    refine map_congr_left fun name member => ?_
    rw [trim_congr fun character inside => rest character (mem_of_mem_splitOn member inside)]
  have ends : (labelLoop text).2.head?.all first = (labelLoop text).2.head?.all second := by
    cases read : (labelLoop text).2 with
    | nil => rfl
    | cons next more => exact rest next (read ▸ mem_cons_self)
  unfold labelOf
  simp only [ends]
  refine ⟨trivial, fun read found => ?_⟩
  split_ifs at found <;> cases found
  exact names

omit same in
private theorem parseWith_congr
    (cut : (splitJustification first text).1 = (splitJustification second text).1)
    (agree : ∀ character ∈ (splitJustification second text).1, first character = second character)
    (lineComment : Bool) : parseWith first text lineComment = parseWith second text lineComment := by
  unfold parseWith
  rw [cut, trim_congr agree]
  have kept : ∀ character ∈ trim second (splitJustification second text).1,
      first character = second character := fun character member =>
    agree character ((dropWhile_suffix _).subset (( rdropWhile_prefix second _).subset member))
  obtain ⟨labels, names⟩ := labelOf_congr kept
  rw [labels]
  cases found : labelOf second (trim second (splitJustification second text).1) with
  | none => rfl
  | some read => simp only [bind_some, names read found]

end

section

private theorem not_markAfter_nil (before : List Char) : ¬ MarkAfter [] before := by
  rintro ⟨first, hyphens, last, more, text, -⟩
  simp at text

variable {rest : List Char}

private theorem markAfter_cons (other : Char) (before : List Char) :
    MarkAfter (character :: rest) (other :: before) ↔ other = character ∧ MarkAfter rest before := by
  unfold MarkAfter
  simp only [cons_append, List.cons.injEq]
  constructor
  · rintro ⟨first, hyphens, last, more, ⟨rfl, text⟩, marked⟩
    exact ⟨rfl, first, hyphens, last, more, text, marked⟩
  · rintro ⟨rfl, first, hyphens, last, more, text, marked⟩
    exact ⟨first, hyphens, last, more, ⟨rfl, text⟩, marked⟩

private theorem esSpace_hyphen : esSpace '-' = false := by decide

private theorem markAfter_start : MarkAfter (character :: rest) [] ↔
      esSpace character ∧ (afterMark esSpace rest).isSome := by
  unfold MarkAfter afterMark
  simp only [nil_append, List.cons.injEq]
  constructor
  · rintro ⟨first, hyphens, last, more, ⟨rfl, rfl⟩, space, two, all, ends⟩
    have apart : last ≠ '-' := by
      rintro rfl
      rw [esSpace_hyphen] at ends
      exact nomatch ends
    have every : ∀ hyphen ∈ hyphens, decide (hyphen = '-') = true := by simpa using all
    rw [takeWhile_append_of_pos every, dropWhile_append_of_pos every]
    simp [apart, two, ends, space]
  · rintro ⟨space, found⟩
    split_ifs at found with two
    · have whole := takeWhile_append_dropWhile (p := fun character => character = '-') (l := rest)
      have all : ∀ hyphen ∈ rest.takeWhile (fun character => character = '-'),
          hyphen = '-' := fun hyphen member => by simpa using mem_takeWhile_imp member
      split at found
      · rename_i after more dropped
        split_ifs at found with ends
        · rw [dropped] at whole
          exact ⟨character, _, after, more, ⟨rfl, whole.symm⟩, space, two, all, ends⟩
        · exact nomatch found
      · exact nomatch found
    · exact nomatch found

variable {rest directive : List Char}

private theorem cut_start (marked : MarkAfter (character :: rest) []) :
    Cut (character :: rest) directive ↔ directive = [] := by
  constructor
  · rintro (⟨-, least⟩ | ⟨-, never⟩)
    · by_contra longer
      exact least [] (length_pos_iff.mpr longer) marked
    · exact absurd marked (never [])
  · rintro rfl
    exact .inl ⟨marked, fun before shorter => absurd shorter (Nat.not_lt_zero _)⟩

private theorem cut_later (unmarked : ¬ MarkAfter (character :: rest) []) :
    Cut (character :: rest) directive ↔ ∃ later, directive = character :: later ∧ Cut rest later := by
  have marks : ∀ before, MarkAfter (character :: rest) before ↔
      ∃ shorter, before = character :: shorter ∧ MarkAfter rest shorter := by
    intro before
    cases before with
    | nil => simp [unmarked]
    | cons other shorter => simp [markAfter_cons]
  unfold Cut
  simp only [marks]
  constructor
  · rintro (⟨⟨later, rfl, marked⟩, least⟩ | ⟨rfl, never⟩)
    · exact ⟨later, rfl, .inl ⟨marked, fun before shorter found =>
        least (character :: before) (Nat.succ_lt_succ shorter) ⟨before, rfl, found⟩⟩⟩
    · exact ⟨rest, rfl, .inr ⟨rfl, fun before found => never _ ⟨before, rfl, found⟩⟩⟩
  · rintro ⟨later, rfl, ⟨marked, least⟩ | ⟨rfl, never⟩⟩
    · refine .inl ⟨⟨later, rfl, marked⟩, ?_⟩
      rintro - less ⟨shorter, rfl, found⟩
      exact least shorter (Nat.lt_of_succ_lt_succ less) found
    · refine .inr ⟨rfl, ?_⟩
      rintro - ⟨shorter, rfl, found⟩
      exact never shorter found

private theorem cut_iff (text directive : List Char) :
    Cut text directive ↔ directive = (splitJustification esSpace text).1 := by
  induction text generalizing directive with
  | nil => simp [Cut, splitJustification, not_markAfter_nil]
  | cons character rest ih =>
    rw [splitJustification]
    by_cases marked : MarkAfter (character :: rest) []
    · obtain ⟨space, found⟩ := markAfter_start.mp marked
      obtain ⟨justification, found⟩ := isSome_iff_exists.mp found
      rw [cut_start marked, if_pos space, found]
    · have kept : Cut (character :: rest) directive ↔
          directive = character :: (splitJustification esSpace rest).1 := by
        simp [cut_later marked, ih]
      rw [kept]
      rw [markAfter_start, not_and] at marked
      split
      · rename_i space
        rw [not_isSome_iff_eq_none.mp (marked space)]
      · rfl

private theorem isJsSpace_of_esSpace (space : esSpace character) : isJsSpace character := by
  rw [isJsSpace_eq]
  · exact space
  · rintro nextLine
    simp [esSpace, nextLine] at space

private theorem mem_splitJustification {more : List Char} (other : esSpace character = false)
    (found : (rest.dropWhile fun next => decide (next = '-')) = character :: more) :
    character ∈ (splitJustification esSpace rest).1 := by
  induction rest with
  | nil => cases found
  | cons next rest ih =>
    rw [dropWhile_cons] at found
    split at found
    · rename_i hyphen
      rw [splitJustification, of_decide_eq_true hyphen, esSpace_hyphen]
      exact mem_cons_of_mem _ (ih found)
    · cases found
      rw [splitJustification, other]
      exact mem_cons_self

private theorem afterMark_marked {more : List Char} (marked : afterMark esSpace rest = some more) :
    afterMark isJsSpace rest = some more := by
  unfold afterMark at marked ⊢
  split_ifs at marked ⊢
  split at marked
  · split_ifs at marked with space
    rw [if_pos (isJsSpace_of_esSpace space), marked]
  · cases marked

private theorem afterMark_unmarked (unmarked : afterMark esSpace rest = none)
    (plain : ∀ next ∈ (splitJustification esSpace rest).1, next.toNat ≠ 0x85) :
    afterMark isJsSpace rest = none := by
  unfold afterMark at unmarked ⊢
  split_ifs at unmarked ⊢
  · split at unmarked
    · rename_i after more dropped
      split_ifs at unmarked with space
      have other := Bool.eq_false_iff.mpr space
      rw [if_neg]
      rwa [isJsSpace_eq (plain after (mem_splitJustification other dropped))]
    · rfl
  · rfl

private theorem splitJustification_plain (text : List Char)
    (plain : ∀ character ∈ (splitJustification esSpace text).1, character.toNat ≠ 0x85) :
    (splitJustification isJsSpace text).1 = (splitJustification esSpace text).1 := by
  induction text with
  | nil => rfl
  | cons character rest ih =>
    have keep : (splitJustification esSpace (character :: rest)).1 =
          character :: (splitJustification esSpace rest).1 →
        (splitJustification isJsSpace rest).1 = (splitJustification esSpace rest).1 ∧
          isJsSpace character = esSpace character ∧
          ∀ next ∈ (splitJustification esSpace rest).1, next.toNat ≠ 0x85 := by
      intro kept
      rw [kept] at plain
      have later : ∀ next ∈ (splitJustification esSpace rest).1, next.toNat ≠ 0x85 :=
        fun next member => plain next (mem_cons_of_mem _ member)
      exact ⟨ih later, isJsSpace_eq (plain character mem_cons_self), later⟩
    simp only [splitJustification] at keep ⊢
    cases space : esSpace character with
    | false =>
      obtain ⟨later, here, -⟩ := keep (by simp [space])
      simp [here, space, later]
    | true =>
      rw [isJsSpace_of_esSpace space]
      cases marked : afterMark esSpace rest with
      | some more => simp [afterMark_marked marked]
      | none =>
        obtain ⟨later, -, plain⟩ := keep (by simp [space, marked])
        simp [afterMark_unmarked marked plain, later]

end

section

variable {label rest : List Char}

private theorem labelLoop_lower (all : ∀ letter ∈ label, isLower letter) (rest : List Char) :
    labelLoop (label ++ rest) = (label ++ (labelLoop rest).1, (labelLoop rest).2) := by
  induction label with
  | nil => rfl
  | cons letter label ih =>
    have later := ih fun other member => all other (mem_cons_of_mem _ member)
    simp [labelLoop, all letter mem_cons_self, later]

private theorem Words.head (words : Words label) : label.head?.any isLower := by
  cases words with
  | word some_letter all =>
    obtain ⟨letter, word, rfl⟩ := exists_cons_of_ne_nil some_letter
    exact all letter mem_cons_self
  | hyphen some_letter all _ =>
    obtain ⟨letter, word, rfl⟩ := exists_cons_of_ne_nil some_letter
    exact all letter mem_cons_self

private theorem isLower_of_esSpace (space : esSpace character) :
    isLower character = false ∧ character ≠ '-' := by
  constructor
  · by_contra lower
    simp only [Bool.not_eq_false, isLower, decide_eq_true_eq] at lower
    have low : 97 ≤ character.toNat := lower.1
    have high : character.toNat ≤ 122 := lower.2
    simp only [esSpace, decide_eq_true_eq] at space
    omega
  · rintro rfl
    rw [esSpace_hyphen] at space
    exact nomatch space

private theorem Words.labelLoop (words : Words label) (ends : ∀ next ∈ rest.head?, esSpace next) :
    labelLoop (label ++ rest) = (label, rest) := by
  induction words with
  | word _ all =>
    have stop : Suppression.labelLoop rest = ([], rest) := by
      cases rest with
      | nil => rfl
      | cons next more =>
        obtain ⟨lower, hyphen⟩ := isLower_of_esSpace (ends next rfl)
        simp [Suppression.labelLoop, lower, hyphen]
    rw [labelLoop_lower all, stop, append_nil]
  | hyphen _ all later ih =>
    have next := later.head
    rw [append_assoc, labelLoop_lower all, cons_append, Suppression.labelLoop, ih]
    rename_i word more _
    cases more with
    | nil => exact nomatch next
    | cons letter more => simp_all

private theorem Words.cons {letter : Char} (lower : isLower letter) (words : Words label) :
    Words (letter :: label) := by
  cases words with
  | word some_letter all => exact .word (by simp) (by simpa using ⟨lower, all⟩)
  | hyphen some_letter all later =>
    rw [← cons_append]
    exact .hyphen (by simp) (by simpa using ⟨lower, all⟩) later

private theorem words_labelLoop (text : List Char) : (text.head?.any isLower → Words (labelLoop text).1) ∧
      (text.head? = some '-' → text.tail.head?.any isLower →
        ∃ later, (labelLoop text).1 = '-' :: later ∧ Words later) := by
  induction text with
  | nil => exact ⟨nofun, nofun⟩
  | cons character rest ih =>
    constructor
    · intro lower
      have lower : isLower character := lower
      have one : Words [character] := .word (by simp) (by simpa using lower)
      simp only [Suppression.labelLoop, lower, Bool.true_or, if_true]
      cases rest with
      | nil => exact one
      | cons next more =>
        by_cases letter : isLower next
        · exact (ih.1 letter).cons lower
        · by_cases joined : next = '-' ∧ more.head?.any isLower
          · obtain ⟨later, read, words⟩ := ih.2 (congrArg some joined.1) joined.2
            rw [read]
            have joined : Words ([character] ++ '-' :: later) :=
              .hyphen (by simp) (by simpa using lower) words
            exact joined
          · have stop : (Suppression.labelLoop (next :: more)).1 = [] := by
              simp only [Suppression.labelLoop]
              rw [if_neg]
              simpa [letter] using joined
            rw [stop]
            exact one
    · intro hyphen lower
      cases hyphen
      exact ⟨_, by simp [Suppression.labelLoop, show rest.head?.any isLower = true from lower],
        ih.1 lower⟩

private theorem stripStart_iff {start text : List Char} :
    stripStart start text = some rest ↔ text = start ++ rest := by
  unfold stripStart
  split
  · rename_i starts
    obtain ⟨more, rfl⟩ := isPrefixOf_iff_prefix.mp starts
    simp
  · rename_i other
    refine ⟨nofun, fun whole => absurd ?_ other⟩
    exact isPrefixOf_iff_prefix.mpr ⟨rest, whole.symm⟩

variable {action : Action}

private theorem actionOf_iff : actionOf rest = some action ↔ rest = actionText action := by
  constructor
  · intro found
    unfold actionOf at found
    split_ifs at found <;> (obtain rfl := Option.some.inj found; assumption)
  · rintro rfl
    cases action <;> decide

private theorem classify_iff {origin : Origin} :
    classify label = some (origin, action) ↔ label = originText origin ++ actionText action := by
  constructor
  · intro found
    unfold classify at found
    cases eslint : stripStart "eslint-".toList label with
    | some rest =>
      rw [eslint] at found
      obtain ⟨read, named, same⟩ := map_eq_some_iff.mp found
      cases same
      rw [stripStart_iff.mp eslint, actionOf_iff.mp named]
      rfl
    | none =>
      rw [eslint] at found
      obtain ⟨rest, checker, found⟩ := bind_eq_some_iff.mp found
      obtain ⟨read, named, same⟩ := map_eq_some_iff.mp found
      cases same
      rw [stripStart_iff.mp checker, actionOf_iff.mp named]
      rfl
  · rintro rfl
    cases origin <;> cases action <;> decide

end

private theorem parseWith_iff (text : List Char) (lineComment : Bool) (origin : Origin) (action : Action)
    (names : List (List Char)) : parseWith esSpace text lineComment = some (origin, action, names) ↔
      Directive text lineComment origin action names := by
  unfold parseWith Directive
  simp only [cut_iff, exists_and_left, exists_eq_left]
  generalize trim esSpace (splitJustification esSpace text).1 = directive
  constructor
  · intro parsed
    obtain ⟨⟨label, list⟩, labelled, parsed⟩ := bind_eq_some_iff.mp parsed
    obtain ⟨⟨read, acts⟩, classified, parsed⟩ := bind_eq_some_iff.mp parsed
    unfold labelOf at labelled
    dsimp only at labelled
    split_ifs at labelled with starts ends
    have read_label := Option.some.inj labelled
    have whole := labelLoop_append directive
    have words := (words_labelLoop directive).1 starts
    rw [read_label] at whole words ends
    split_ifs at parsed with lined
    cases parsed
    refine ⟨label, list, whole.symm, words, ?_, classify_iff.mp classified, ?_, rfl⟩
    · intro next head
      rw [mem_def.mp head] at ends
      exact ends
    · intro line
      by_contra other
      exact lined ⟨line, other⟩
  · rintro ⟨label, list, rfl, words, ends, named, lined, rfl⟩
    have read : labelOf esSpace (label ++ list) = some (label, list) := by
      unfold labelOf
      have starts : (label ++ list).head?.any isLower := by
        have head := words.head
        cases label with
        | nil => exact nomatch head
        | cons letter label => exact head
      have spaced : list.head?.all esSpace := by
        cases list with
        | nil => rfl
        | cons next more => exact ends next rfl
      rw [if_pos starts, words.labelLoop ends]
      exact if_pos spaced
    rw [read, bind_some, classify_iff.mpr named, bind_some, if_neg]
    rintro ⟨line, other⟩
    exact other (lined line)

/-- A comment without U+0085 before its justification is read as the directive the grammar says, and
as none otherwise. -/
theorem comment_read_by_grammar (text directive : List Char) (cut : Cut text directive)
    (plain : ∀ character ∈ directive, character.toNat ≠ 0x85) (lineComment : Bool) (origin : Origin)
    (action : Action) (names : List (List Char)) :
    parseSuppression text lineComment = some (origin, action, names) ↔
      Directive text lineComment origin action names := by
  obtain rfl := (cut_iff text directive).mp cut
  unfold parseSuppression
  rw [parseWith_congr (splitJustification_plain text plain) fun character member =>
    isJsSpace_eq (plain character member)]
  exact parseWith_iff text lineComment origin action names

/-- A directive whose justification ends in U+0085. -/
theorem comment_read_by_grammar_justified :
    Cut ("eslint-disable 'a', b -- why".toList ++ [Char.ofNat 0x85]) "eslint-disable 'a', b".toList ∧
      Directive ("eslint-disable 'a', b -- why".toList ++ [Char.ofNat 0x85]) false .eslint .disable
        [['a'], ['b']] := by
  have cut : Cut ("eslint-disable 'a', b -- why".toList ++ [Char.ofNat 0x85])
      "eslint-disable 'a', b".toList := (cut_iff _ _).mpr (by decide)
  have plain : ("eslint-disable 'a', b".toList.all fun character =>
      character.toNat != 0x85) := by decide
  refine ⟨cut, (comment_read_by_grammar _ _ cut (fun character member => ?_) false .eslint .disable
    [['a'], ['b']]).mp (by decide)⟩
  exact bne_iff_ne.mp (all_eq_true.mp plain character member)

/-- U+0085 ends a label here, and is no white space of the grammar. -/
theorem next_line_ends_label :
    parseSuppression ("eslint-disable".toList ++ [Char.ofNat 0x85]) false =
        some (.eslint, .disable, []) ∧
      ∀ origin action names, ¬ Directive ("eslint-disable".toList ++ [Char.ofNat 0x85]) false
        origin action names := by
  refine ⟨by decide, fun origin action names read => ?_⟩
  have none : parseWith esSpace ("eslint-disable".toList ++ [Char.ofNat 0x85]) false = none := by
    decide
  rw [← parseWith_iff, none] at read
  exact nomatch read

end SolidChecker.Suppression
