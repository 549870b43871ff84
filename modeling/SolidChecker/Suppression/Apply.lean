/- source: solid-facts-backend/src/suppression.rs, solid-facts/src/ast/suppression.rs -/

import SolidChecker.Suppression.Comments
import SolidChecker.Foundation.Grouping
import SolidChecker.Foundation.Table
import SolidChecker.Producer.Path
import Mathlib.Data.Prod.Lex

namespace SolidChecker.Suppression

open Foundation List

abbrev Name := List Char

structure Comment where
  start : ℕ
  stop : ℕ
  line : Bool
  text : List Char

structure SuppressionCommentFact where
  start : ℕ
  stop : ℕ
  origin : Origin
  action : Action
  block : Bool
  names : List Name

def Comment.fact (comment : Comment) (read : Origin × Action × List Name) : SuppressionCommentFact :=
  ⟨comment.start, comment.stop, read.1, read.2.1, !comment.line, read.2.2⟩

def suppressionComments (comments : List Comment) : List SuppressionCommentFact :=
  (comments.filterMap fun comment =>
    (parseSuppression comment.text comment.line).map comment.fact).mergeSort
    fun first second => decide (toLex (first.start, first.stop) ≤ toLex (second.start, second.stop))

def lineStarts : List Char → ℕ → List ℕ
  | [], _ => []
  | '\r' :: '\n' :: rest, offset => (offset + 2) :: lineStarts rest (offset + 2)
  | character :: rest, offset =>
    let next := offset + character.utf8Size
    if character = '\n' ∨ character = '\r' ∨ character = '\u2028' ∨ character = '\u2029' then
      next :: lineStarts rest next
    else lineStarts rest next

def lineAt (source : List Char) (offset : ℕ) : ℕ :=
  ((0 :: lineStarts source 0).takeWhile fun start => start ≤ offset).length

def terminators : List Char → ℕ
  | [] => 0
  | '\r' :: '\n' :: rest => terminators rest + 1
  | character :: rest =>
    if character = '\n' ∨ character = '\r' ∨ character = '\u2028' ∨ character = '\u2029' then
      terminators rest + 1
    else terminators rest

def utf8Length : List Char → ℕ
  | [] => 0
  | character :: rest => character.utf8Size + utf8Length rest

private theorem lineStarts_lt (text : List Char) (offset : ℕ) :
    ∀ start ∈ lineStarts text offset, offset < start := by
  fun_induction lineStarts text offset with
  | case1 => simp
  | case2 rest offset ih =>
    simp only [mem_cons, forall_eq_or_imp]
    exact ⟨by omega, fun start member => (by omega : offset < offset + 2).trans (ih start member)⟩
  | case3 character rest offset _ next _ ih =>
    have size := character.utf8Size_pos
    simp only [mem_cons, forall_eq_or_imp]
    exact ⟨by omega, fun start member => (by omega : offset < next).trans (ih start member)⟩
  | case4 character rest offset _ next _ ih =>
    have size := character.utf8Size_pos
    exact fun start member => (by omega : offset < next).trans (ih start member)

private theorem takeWhile_lineStarts (before after : List Char) (offset : ℕ)
    (whole : before.getLast? = some '\r' → after.head? ≠ some '\n') :
    ((lineStarts (before ++ after) offset).takeWhile fun start =>
      decide (start ≤ offset + utf8Length before)).length = terminators before := by
  have inner : ∀ {first : Char} {rest : List Char},
      ((first :: rest).getLast? = some '\r' → after.head? ≠ some '\n') →
        rest.getLast? = some '\r' → after.head? ≠ some '\n' := by
    intro first rest whole last
    refine whole ?_
    rw [getLast?_cons, last]
    rfl
  have unpaired : ∀ {first : Char} {rest : List Char},
      (∀ more, first = '\r' → rest = '\n' :: more → False) →
      ((first :: rest).getLast? = some '\r' → after.head? ≠ some '\n') →
        ∀ more, first = '\r' → rest ++ after = '\n' :: more → False := by
    intro first rest single whole more carriage feed
    cases rest with
    | nil => exact whole (by rw [carriage]; rfl) (by rw [← nil_append after, feed]; rfl)
    | cons next rest => exact single rest carriage (by rw [(cons.inj feed).1])
  fun_induction terminators before generalizing offset with
  | case1 =>
    cases starts : lineStarts after offset with
    | nil => simp [starts]
    | cons start more =>
      have later := lineStarts_lt after offset start (starts ▸ mem_cons_self)
      have beyond : ¬ start ≤ offset := by omega
      simp [starts, utf8Length, beyond]
  | case2 rest ih =>
    have later := ih (offset + 2) (inner whole)
    have size : offset + utf8Length ('\r' :: '\n' :: rest) = offset + 2 + utf8Length rest := by
      simp only [utf8Length, show '\r'.utf8Size = 1 from rfl, show '\n'.utf8Size = 1 from rfl]
      omega
    rw [size]
    simp only [cons_append, lineStarts]
    rw [takeWhile_cons, if_pos (decide_eq_true (Nat.le_add_right _ _)), length_cons, later]
  | case3 character rest single ends ih =>
    have later := ih (offset + character.utf8Size) (inner whole)
    rw [cons_append, lineStarts.eq_3 _ _ _ (unpaired single whole), if_pos ends, takeWhile_cons,
      utf8Length, ← Nat.add_assoc, if_pos (decide_eq_true (Nat.le_add_right _ _)), length_cons, later]
  | case4 character rest single other ih =>
    have later := ih (offset + character.utf8Size) (inner whole)
    rw [cons_append, lineStarts.eq_3 _ _ _ (unpaired single whole), if_neg other, utf8Length,
      ← Nat.add_assoc, later]

theorem lineAt_append (before after : List Char)
    (whole : before.getLast? = some '\r' → after.head? ≠ some '\n') :
    lineAt (before ++ after) (utf8Length before) = terminators before + 1 := by
  have counted := takeWhile_lineStarts before after 0 whole
  rw [Nat.zero_add] at counted
  unfold lineAt
  rw [takeWhile_cons, if_pos (decide_eq_true (Nat.zero_le _)), length_cons, counted]

structure Finding where
  id : Name
  rule : Name
  kind : String
  subjectKind : String
  path : Name
  startByte : ℕ

structure Dialect where
  hasRule : Name → Bool
  hasCode : Name → Bool
  adapterRuleIds : List Name
  upstreamRuleNames : List Name
  ruleGroup : Name → Option (List Name)
  ruleAlias : Name → Option Name
  ruleAliasCode : Name → Option Name
  retiredCode : Name → Bool
  retiredRule : Name → Bool

inductive Matcher where
  | rule (rule : Name)
  | ruleCode (rule code : Name)
  | code (code : Name)
deriving DecidableEq

def Matcher.reaches (finding : Finding) : Matcher → Bool
  | .rule name => decide (finding.rule = name)
  | .ruleCode name id => decide (finding.rule = name ∧ finding.id = id)
  | .code id => decide (finding.id = id)

inductive Reach where
  | all
  | named (matchers : List Matcher)

def Reach.reaches (finding : Finding) : Reach → Bool
  | .all => true
  | .named matchers => matchers.any (Matcher.reaches finding)

inductive Resolved where
  | matchers (found : List Matcher)
  | inert
  | unknown

namespace Dialect

variable (dialect : Dialect)

def checkerName (name : Name) (codes : Bool) : Resolved :=
  if name ∈ dialect.adapterRuleIds then .inert
  else match dialect.ruleGroup name with
    | some members => .matchers (members.map .rule)
    | none =>
      let canonical := (dialect.ruleAlias name).getD name
      if dialect.hasRule canonical then
        .matchers [match dialect.ruleAliasCode name with
          | some code => .ruleCode canonical code
          | none => .rule canonical]
      else if codes && dialect.hasCode name then .matchers [.code name]
      else if codes && dialect.retiredCode name then .inert
      else if (dialect.ruleAlias name).isSome || dialect.retiredRule name then .inert
      else .unknown

def resolve (origin : Origin) (written : Name) : Resolved :=
  match stripStart "solid-checker/".toList written with
  | some name => dialect.checkerName name (decide (origin = .solidChecker))
  | none =>
    match stripStart "solid/".toList written with
    | some name =>
      if name ∈ dialect.upstreamRuleNames then
        match dialect.checkerName name false with
        | .unknown => .inert
        | other => other
      else .inert
    | none =>
      if origin = .solidChecker then dialect.checkerName written true else .inert

end Dialect

def hostApplies (host : Finset Name) (origin : Origin) (written : Name) : Bool :=
  decide (origin = .eslint) && (stripStart "solid-checker/".toList written).any fun rule =>
    decide (rule ∈ host)

def reachOf (dialect : Dialect) (host : Finset Name) (comment : SuppressionCommentFact) :
    Option Reach × List Name :=
  if comment.names = [] then (some .all, [])
  else
    let read := (comment.names.filter fun written => !hostApplies host comment.origin written).map
      fun written => (written, dialect.resolve comment.origin written)
    let matchers := read.flatMap fun
      | (_, .matchers found) => found
      | _ => []
    (if matchers = [] then none else some (.named matchers), read.filterMap fun
      | (written, .unknown) => some written
      | _ => none)

structure Scan where
  block : List (ℕ × Bool × Reach)
  lines : List (ℕ × Reach)

def Scan.suppresses (scan : Scan) (finding : Finding) (offset line : ℕ) : Bool :=
  (scan.lines.any fun entry => decide (entry.1 = line) && entry.2.reaches finding) ||
    (scan.block.takeWhile fun entry => decide (entry.1 ≤ offset)).foldl (fun disabled entry =>
      if entry.2.2.reaches finding then entry.2.1 else disabled) false

def blockEntry (origin : Origin) (entry : SuppressionCommentFact × Reach) :
    Option (ℕ × Bool × Reach) :=
  if entry.1.origin ≠ origin then none
  else match entry.1.action with
    | .disable => some (entry.1.start, true, entry.2)
    | .enable => some (entry.1.start, false, entry.2)
    | _ => none

def lineEntry (source : List Char) (origin : Origin) (entry : SuppressionCommentFact × Reach) :
    Option (ℕ × Reach) :=
  let first := lineAt source entry.1.start
  let last := lineAt source (entry.1.stop - 1)
  if entry.1.origin ≠ origin then none
  else match entry.1.action with
    | .disableLine => if first = last then some (first, entry.2) else none
    | .disableNextLine => some (last + 1, entry.2)
    | _ => none

structure SourceFile where
  path : Name
  source : List Char
  comments : List Comment
  apart : (comments.map Comment.start).Nodup

structure Project where
  files : List SourceFile
  dependencySourceRoot : Name → Option Name
  distinct : (files.map SourceFile.path).Nodup

structure FileDirectives where
  source : List Char
  eslint : Scan
  checker : Scan

def FileDirectives.suppresses (directives : FileDirectives) (finding : Finding) : Bool :=
  let line := lineAt directives.source finding.startByte
  directives.eslint.suppresses finding finding.startByte line ||
    directives.checker.suppresses finding finding.startByte line

section

variable (dialect : Dialect) (host : Finset Name)

def reaching (comments : List SuppressionCommentFact) : List (SuppressionCommentFact × Reach) :=
  comments.filterMap fun comment =>
    (reachOf dialect host comment).1.map fun reach => (comment, reach)

def compile (file : SourceFile) : Option FileDirectives × List Name :=
  let comments := suppressionComments file.comments
  if comments = [] then (none, [])
  else
    let scan origin : Scan := ⟨(reaching dialect host comments).filterMap (blockEntry origin),
      (reaching dialect host comments).filterMap (lineEntry file.source origin)⟩
    (some ⟨file.source, scan .eslint, scan .solidChecker⟩,
      comments.flatMap fun comment => (reachOf dialect host comment).2)

def apply (project : Project) (findings : List Finding) : List Finding × List Name :=
  let own := project.files.filter fun file => (project.dependencySourceRoot file.path).isNone
  let compiled := own.map fun file => (file.path, compile dialect host file)
  let pairs := compiled.filterMap fun entry =>
    entry.2.1.map fun directives => (entry.1, directives)
  let byPath := Table.collect pairs
  (if pairs.isEmpty then findings
    else findings.filter fun finding => !(decide (finding.kind = "violation") &&
      decide (finding.subjectKind ≠ "project") &&
      (byPath.lookup finding.path).any fun directives => directives.suppresses finding),
    compiled.flatMap fun entry => entry.2.2)

/-! ### What a comment covers -/

/-- A directive names no rule, or a name that is not the host's to apply and resolves to a rule or
code of the finding. -/
def Reaches (finding : Finding) (origin : Origin) (names : List Name) : Prop :=
  names = [] ∨ ∃ written ∈ names, hostApplies host origin written = false ∧
    ∃ found, dialect.resolve origin written = .matchers found ∧
      ∃ matcher ∈ found, matcher.reaches finding

def Directs (finding : Finding) (origin : Origin) (action : Action) (comment : Comment) : Prop :=
  ∃ names, parseSuppression comment.text comment.line = some (origin, action, names) ∧
    Reaches dialect host finding origin names

def LineCovered (file : SourceFile) (finding : Finding) (origin : Origin) : Prop :=
  ∃ comment ∈ file.comments,
    Directs dialect host finding origin .disableLine comment ∧
        lineAt file.source comment.start = lineAt file.source (comment.stop - 1) ∧
        lineAt file.source comment.start = lineAt file.source finding.startByte ∨
      Directs dialect host finding origin .disableNextLine comment ∧
        lineAt file.source (comment.stop - 1) + 1 = lineAt file.source finding.startByte

def SwitchedOff (file : SourceFile) (finding : Finding) (origin : Origin) : Prop :=
  ∃ comment ∈ file.comments, Directs dialect host finding origin .disable comment ∧
    comment.start ≤ finding.startByte ∧
    ∀ other ∈ file.comments, Directs dialect host finding origin .enable other →
      comment.start < other.start → finding.startByte < other.start

def Covered (project : Project) (finding : Finding) : Prop :=
  finding.kind = "violation" ∧ finding.subjectKind ≠ "project" ∧
    ∃ file ∈ project.files, file.path = finding.path ∧
      project.dependencySourceRoot file.path = none ∧
      ∃ origin, LineCovered dialect host file finding origin ∨
        SwitchedOff dialect host file finding origin

variable {dialect host} {file : SourceFile} {finding : Finding}

private theorem filterMap_keys {X Y Z : Type} {key : X → Y} {key' : Z → Y} {make : X → Option Z}
    (same : ∀ item made, make item = some made → key' made = key item) (items : List X) :
    List.Sublist ((items.filterMap make).map key') (items.map key) := by
  induction items with
  | nil => exact .slnil
  | cons item items ih =>
    rw [filterMap_cons, map_cons]
    cases found : make item with
    | none => exact ih.cons _
    | some made =>
      rw [map_cons, same item made found]
      exact ih.cons_cons _

private theorem mem_suppressionComments {comments : List Comment} {fact : SuppressionCommentFact} :
    fact ∈ suppressionComments comments ↔ ∃ comment ∈ comments, ∃ read,
      parseSuppression comment.text comment.line = some read ∧ comment.fact read = fact := by
  simp only [suppressionComments, mem_mergeSort, mem_filterMap, Option.map_eq_some_iff]

private theorem comments_sorted (file : SourceFile) : (suppressionComments file.comments).Pairwise
    fun first second => first.start < second.start := by
  have sorted := @pairwise_mergeSort SuppressionCommentFact (fun first second =>
      toLex (first.start, first.stop) ≤ toLex (second.start, second.stop))
    (fun _ _ _ first second => decide_eq_true
      ((of_decide_eq_true first).trans (of_decide_eq_true second)))
    (fun first second => by simpa using le_total _ _)
    (file.comments.filterMap fun comment =>
      (parseSuppression comment.text comment.line).map comment.fact)
  have distinct : ((suppressionComments file.comments).map SuppressionCommentFact.start).Nodup := by
    refine ((mergeSort_perm _ _).map _).nodup_iff.mpr (file.apart.sublist (filterMap_keys ?_ _))
    intro comment fact made
    obtain ⟨read, -, rfl⟩ := Option.map_eq_some_iff.mp made
    rfl
  refine (sorted.and (pairwise_map.mp distinct)).imp fun {first second} ordered => ?_
  rcases Prod.Lex.le_iff.mp (of_decide_eq_true ordered.1) with less | same
  · exact less
  · exact absurd same.1 ordered.2

private theorem reachOf_iff (comment : SuppressionCommentFact) :
    (∃ reach, (reachOf dialect host comment).1 = some reach ∧ reach.reaches finding) ↔
      Reaches dialect host finding comment.origin comment.names := by
  unfold reachOf Reaches
  by_cases bare : comment.names = []
  · simp [bare, Reach.reaches]
  · simp only [bare, if_false, false_or]
    constructor
    · rintro ⟨reach, found, reaches⟩
      split_ifs at found
      cases found
      obtain ⟨matcher, member, reaches⟩ := any_eq_true.mp reaches
      obtain ⟨⟨written, resolved⟩, read, member⟩ := mem_flatMap.mp member
      obtain ⟨other, kept, same⟩ := mem_map.mp read
      cases same
      obtain ⟨named, free⟩ := mem_filter.mp kept
      cases resolves : dialect.resolve comment.origin written with
      | matchers found => exact ⟨written, named, by simpa using free, found, resolves, matcher, by
          simpa [resolves] using member, reaches⟩
      | inert => simp [resolves] at member
      | unknown => simp [resolves] at member
    · rintro ⟨written, named, free, found, resolves, matcher, member, reaches⟩
      have inside : matcher ∈ ((comment.names.filter fun written =>
          !hostApplies host comment.origin written).map fun written =>
            (written, dialect.resolve comment.origin written)).flatMap (fun
              | (_, .matchers found) => found
              | _ => []) := by
        refine mem_flatMap.mpr ⟨(written, .matchers found), mem_map.mpr ⟨written, ?_, ?_⟩, member⟩
        · exact mem_filter.mpr ⟨named, by simpa using free⟩
        · rw [resolves]
      rw [if_neg (ne_nil_of_mem inside)]
      exact ⟨_, rfl, any_eq_true.mpr ⟨matcher, inside, reaches⟩⟩

variable {entry : SuppressionCommentFact × Reach} {comments : List SuppressionCommentFact}

private theorem mem_reaching : entry ∈ reaching dialect host comments ↔
      entry.1 ∈ comments ∧ (reachOf dialect host entry.1).1 = some entry.2 := by
  unfold reaching
  simp only [mem_filterMap, Option.map_eq_some_iff]
  constructor
  · rintro ⟨comment, member, reach, found, rfl⟩
    exact ⟨member, found⟩
  · rintro ⟨member, found⟩
    exact ⟨entry.1, member, entry.2, found, rfl⟩

variable {origin : Origin}

private theorem directs_of_reaching
    (member : entry ∈ reaching dialect host (suppressionComments file.comments))
    (reaches : entry.2.reaches finding) : ∃ comment ∈ file.comments,
      comment.start = entry.1.start ∧ comment.stop = entry.1.stop ∧
        Directs dialect host finding entry.1.origin entry.1.action comment := by
  obtain ⟨held, found⟩ := mem_reaching.mp member
  have reached := (reachOf_iff entry.1).mp ⟨entry.2, found, reaches⟩
  obtain ⟨comment, inside, read, parsed, same⟩ := mem_suppressionComments.mp held
  rw [← same] at reached ⊢
  exact ⟨comment, inside, rfl, rfl, read.2.2, parsed, reached⟩

private theorem reaching_of_directs {comment : Comment} {action : Action}
    (inside : comment ∈ file.comments) (directs : Directs dialect host finding origin action comment) :
    ∃ names reach, (comment.fact (origin, action, names), reach) ∈
      reaching dialect host (suppressionComments file.comments) ∧ reach.reaches finding := by
  obtain ⟨names, parsed, reached⟩ := directs
  obtain ⟨reach, found, reaches⟩ :=
    (reachOf_iff (comment.fact (origin, action, names))).mpr reached
  exact ⟨names, reach, mem_reaching.mpr
    ⟨mem_suppressionComments.mpr ⟨comment, inside, _, parsed, rfl⟩, found⟩, reaches⟩

private theorem lineEntry_iff {source : List Char} {covered : ℕ × Reach} :
    lineEntry source origin entry = some covered ↔ entry.1.origin = origin ∧ entry.2 = covered.2 ∧
        (entry.1.action = .disableLine ∧
            lineAt source entry.1.start = lineAt source (entry.1.stop - 1) ∧
            lineAt source entry.1.start = covered.1 ∨
          entry.1.action = .disableNextLine ∧ lineAt source (entry.1.stop - 1) + 1 = covered.1) := by
  obtain ⟨line, reach⟩ := covered
  unfold lineEntry
  by_cases family : entry.1.origin = origin
  · cases entry.1.action with
    | disableLine =>
      by_cases single : lineAt source entry.1.start = lineAt source (entry.1.stop - 1)
      · simp [family, single, and_comm]
      · simp [family, single]
    | disableNextLine => simp [family, and_comm]
    | disable => simp [family]
    | enable => simp [family]
  · simp [family]

private theorem blockEntry_iff {switch : ℕ × Bool × Reach} : blockEntry origin entry = some switch ↔
      entry.1.origin = origin ∧ (entry.1.action = .disable ∨ entry.1.action = .enable) ∧
        switch = (entry.1.start, decide (entry.1.action = .disable), entry.2) := by
  unfold blockEntry
  by_cases family : entry.1.origin = origin
  · cases entry.1.action <;> simp [family, eq_comm]
  · simp [family]

private theorem lines_iff (origin : Origin) :
    (((reaching dialect host (suppressionComments file.comments)).filterMap
        (lineEntry file.source origin)).any fun entry =>
          decide (entry.1 = lineAt file.source finding.startByte) && entry.2.reaches finding) ↔
      LineCovered dialect host file finding origin := by
  simp only [any_eq_true, mem_filterMap, Bool.and_eq_true, decide_eq_true_eq, lineEntry_iff]
  constructor
  · rintro ⟨covered, ⟨entry, member, rfl, same, covers⟩, line, reaches⟩
    obtain ⟨comment, inside, starts, stops, directs⟩ := directs_of_reaching member (same ▸ reaches)
    rw [line, ← starts, ← stops] at covers
    refine ⟨comment, inside, covers.imp ?_ ?_⟩
    · rintro ⟨acts, held⟩
      exact ⟨acts ▸ directs, held⟩
    · rintro ⟨acts, held⟩
      exact ⟨acts ▸ directs, held⟩
  · rintro ⟨comment, inside, ⟨directs, single, line⟩ | ⟨directs, line⟩⟩
    · obtain ⟨names, reach, member, reaches⟩ := reaching_of_directs inside directs
      exact ⟨(_, reach), ⟨_, member, rfl, rfl, .inl ⟨rfl, single, line⟩⟩, rfl, reaches⟩
    · obtain ⟨names, reach, member, reaches⟩ := reaching_of_directs inside directs
      exact ⟨(_, reach), ⟨_, member, rfl, rfl, .inr ⟨rfl, line⟩⟩, rfl, reaches⟩

section

variable {entries : List (ℕ × Bool × Reach)}
  (sorted : entries.Pairwise fun first second => first.1 < second.1)

include sorted

private theorem foldl_switches : entries.foldl (fun disabled entry =>
      if entry.2.2.reaches finding then entry.2.1 else disabled) false = true ↔
    ∃ entry ∈ entries, entry.2.2.reaches finding ∧ entry.2.1 = true ∧ ∀ other ∈ entries,
      other.2.2.reaches finding → other.2.1 = false → other.1 ≤ entry.1 := by
  induction entries using List.reverseRecOn with
  | nil => simp
  | append_singleton entries last ih =>
    obtain ⟨earlier, -, before⟩ := pairwise_append.mp sorted
    have less : ∀ other ∈ entries, other.1 < last.1 := fun other member =>
      before other member last (mem_singleton_self _)
    rw [foldl_concat]
    split
    · rename_i switches
      constructor
      · intro disables
        refine ⟨last, by simp, switches, disables, fun other member _ _ => ?_⟩
        rcases mem_append.mp member with inside | same
        · exact (less other inside).le
        · rw [mem_singleton.mp same]
      · rintro ⟨other, member, -, disables, final⟩
        rcases mem_append.mp member with inside | same
        · by_contra enables
          exact (less other inside).not_ge
            (final last (by simp) switches (Bool.eq_false_iff.mpr enables))
        · rwa [← mem_singleton.mp same]
    · rename_i idle
      rw [ih earlier]
      constructor
      · rintro ⟨other, member, switches, disables, final⟩
        refine ⟨other, mem_append_left _ member, switches, disables, fun next inside held => ?_⟩
        rcases mem_append.mp inside with inside | same
        · exact final next inside held
        · exact absurd (mem_singleton.mp same ▸ held) idle
      · rintro ⟨other, member, switches, disables, final⟩
        rcases mem_append.mp member with inside | same
        · exact ⟨other, inside, switches, disables,
            fun next inside => final next (mem_append_left _ inside)⟩
        · exact absurd (mem_singleton.mp same ▸ switches) idle

end

private theorem mem_block (start : ℕ) (off : Bool) :
    (∃ reach : Reach, (start, off, reach) ∈ (reaching dialect host
        (suppressionComments file.comments)).filterMap (blockEntry origin) ∧ reach.reaches finding) ↔
      ∃ comment ∈ file.comments, comment.start = start ∧
        Directs dialect host finding origin (if off then .disable else .enable) comment := by
  simp only [mem_filterMap, blockEntry_iff]
  constructor
  · rintro ⟨reach, ⟨entry, member, rfl, acts, same⟩, reaches⟩
    cases same
    obtain ⟨comment, inside, starts, -, directs⟩ := directs_of_reaching member reaches
    refine ⟨comment, inside, starts, ?_⟩
    rcases acts with acts | acts
    · simpa [acts] using directs
    · simpa [acts] using directs
  · rintro ⟨comment, inside, rfl, directs⟩
    obtain ⟨names, reach, member, reaches⟩ := reaching_of_directs inside directs
    refine ⟨reach, ⟨_, member, rfl, ?_⟩, reaches⟩
    cases off <;> simp [Comment.fact]

private theorem block_iff (origin : Origin) :
    (((reaching dialect host (suppressionComments file.comments)).filterMap
        (blockEntry origin)).takeWhile fun entry => entry.1 ≤ finding.startByte).foldl
          (fun disabled entry => if entry.2.2.reaches finding then entry.2.1 else disabled) false =
        true ↔ SwitchedOff dialect host file finding origin := by
  have sorted : ((reaching dialect host (suppressionComments file.comments)).filterMap
      (blockEntry origin)).Pairwise fun first second => first.1 < second.1 := by
    refine ((comments_sorted file).filterMap (S := fun first second => first.1.start < second.1.start)
      _ ?_).filterMap _ ?_
    · intro first second less entry held other held'
      obtain ⟨reach, -, rfl⟩ := Option.map_eq_some_iff.mp held
      obtain ⟨reach', -, rfl⟩ := Option.map_eq_some_iff.mp held'
      exact less
    · intro first second less entry held other held'
      rw [(blockEntry_iff.mp held).2.2, (blockEntry_iff.mp held').2.2]
      exact less
  rw [Grouping.takeWhile_le _ (sorted.imp le_of_lt), foldl_switches (sorted.filter _)]
  simp only [mem_filter, decide_eq_true_eq]
  constructor
  · rintro ⟨⟨start, off, reach⟩, ⟨member, near⟩, reaches, rfl, final⟩
    obtain ⟨comment, inside, rfl, directs⟩ := (mem_block start true).mp ⟨reach, member, reaches⟩
    refine ⟨comment, inside, directs, near, fun other there enables later => ?_⟩
    obtain ⟨reach', member', reaches'⟩ :=
      (mem_block other.start false).mpr ⟨other, there, rfl, enables⟩
    by_contra close
    exact later.not_ge (final _ ⟨member', not_lt.mp close⟩ reaches' rfl)
  · rintro ⟨comment, inside, directs, near, final⟩
    obtain ⟨reach, member, reaches⟩ :=
      (mem_block comment.start true).mpr ⟨comment, inside, rfl, directs⟩
    refine ⟨(comment.start, true, reach), ⟨member, near⟩, reaches, rfl, ?_⟩
    rintro ⟨start, off, reach'⟩ ⟨member', close⟩ reaches' rfl
    obtain ⟨other, there, rfl, enables⟩ := (mem_block start false).mp ⟨reach', member', reaches'⟩
    by_contra later
    exact (final other there enables (not_le.mp later)).not_ge close

private theorem scan_suppresses_iff (origin : Origin) :
    Scan.suppresses ⟨(reaching dialect host (suppressionComments file.comments)).filterMap
        (blockEntry origin), (reaching dialect host (suppressionComments file.comments)).filterMap
        (lineEntry file.source origin)⟩ finding finding.startByte
        (lineAt file.source finding.startByte) ↔ LineCovered dialect host file finding origin ∨
        SwitchedOff dialect host file finding origin := by
  unfold Scan.suppresses
  rw [Bool.or_eq_true, lines_iff, block_iff]

private theorem compile_suppresses_iff :
    ((compile dialect host file).1.any fun directives => directives.suppresses finding) ↔
      ∃ origin, LineCovered dialect host file finding origin ∨
        SwitchedOff dialect host file finding origin := by
  unfold compile
  dsimp only
  split
  · rename_i bare
    refine ⟨nofun, ?_⟩
    rintro ⟨origin, covered⟩
    rw [← scan_suppresses_iff, bare] at covered
    cases covered
  · simp only [Option.any_some, FileDirectives.suppresses, Bool.or_eq_true, scan_suppresses_iff]
    constructor
    · rintro (covered | covered)
      · exact ⟨.eslint, covered⟩
      · exact ⟨.solidChecker, covered⟩
    · rintro ⟨origin, covered⟩
      cases origin with
      | eslint => exact .inl covered
      | solidChecker => exact .inr covered

end

namespace Sample

def dialect : Dialect where
  hasRule name := decide (name = "no-leak".toList)
  hasCode _ := false
  adapterRuleIds := []
  upstreamRuleNames := []
  ruleGroup _ := none
  ruleAlias _ := none
  ruleAliasCode _ := none
  retiredCode _ := false
  retiredRule _ := false

def disables : Comment := ⟨10, 40, false, "eslint-disable solid-checker/no-leak".toList⟩

def enables : Comment := ⟨50, 60, false, "eslint-enable".toList⟩

def file : SourceFile := ⟨['a'], List.replicate 90 'x', [enables, disables], by decide⟩

def project : Project := ⟨[file], fun _ => none, by decide⟩

def finding (startByte : ℕ) : Finding :=
  ⟨"SC1".toList, "no-leak".toList, "violation", "site", ['a'], startByte⟩

private theorem read : ∀ comment ∈ file.comments, ∀ origin action names,
    parseSuppression comment.text comment.line = some (origin, action, names) →
      origin = .eslint ∧ (comment = enables ∧ action = .enable ∨
        comment = disables ∧ action = .disable) := by
  intro comment member origin action names parsed
  rcases mem_cons.mp member with rfl | last
  · have known : parseSuppression enables.text enables.line = some (.eslint, .enable, []) := by decide
    cases known.symm.trans parsed
    exact ⟨rfl, .inl ⟨rfl, rfl⟩⟩
  · obtain rfl := mem_singleton.mp last
    have known : parseSuppression disables.text disables.line =
      some (.eslint, .disable, ["solid-checker/no-leak".toList]) := by decide
    cases known.symm.trans parsed
    exact ⟨rfl, .inr ⟨rfl, rfl⟩⟩

end Sample

end SolidChecker.Suppression
