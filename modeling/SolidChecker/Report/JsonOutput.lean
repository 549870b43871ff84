/- source: solid-facts-backend/src/json_output.rs, diagnostics.rs -/

import Mathlib.Data.List.Basic
import Mathlib.Algebra.Order.Ring.Nat

namespace SolidChecker.Report.JsonOutput

abbrev Bytes := List UInt8

def utf8 (text : String) : Bytes := text.toUTF8.data.toList

open List

def separator (first : Bool) (depth : ℕ) : Bytes :=
  (if first then utf8 "\n" else utf8 ",\n") ++ (replicate depth (utf8 "  ")).flatten

structure SourceLocation where
  path : String
  startByte : ℕ
  endByte : ℕ
  line : ℕ
  column : ℕ

structure SnapshotFinding (Rest : Type*) where
  subjectKind : String
  primaryLocation : SourceLocation
  relatedLocations : List SourceLocation
  rest : Rest

structure Snapshot (Rest Fact Metrics : Type*) where
  premises : List String
  feedbackFacts : List Fact
  status : String
  findings : List (SnapshotFinding Rest)
  metrics : Metrics

/-- The texts of the values of a report. A finding is an object, so a brace ends its text. -/
structure Serializer (Rest Fact Metrics : Type*) where
  premises : List String → Bytes
  feedbackFacts : List Fact → Bytes
  status : String → Bytes
  finding : SnapshotFinding Rest → Bytes
  metrics : Metrics → Bytes
  closed : ∀ value, ∃ before, finding value = before ++ utf8 "\x7d"

variable {Rest Fact Metrics : Type*} (serializer : Serializer Rest Fact Metrics)

structure Hit where
  start : ℕ
  width : ℕ
  escape : Bytes

def asciiHit (byte : UInt8) (_ : Bytes) : Option (ℕ × Bytes) :=
  if byte = 38 then some (1, utf8 "\\u0026")
  else if byte = 60 then some (1, utf8 "\\u003c")
  else if byte = 62 then some (1, utf8 "\\u003e")
  else none

def wideHit (byte : UInt8) (later : Bytes) : Option (ℕ × Bytes) :=
  if byte = 0xE2 ∧ later[0]? = some 0x80 then
    if later[1]? = some 0xA8 then some (3, utf8 "\\u2028")
    else if later[1]? = some 0xA9 then some (3, utf8 "\\u2029")
    else none
  else none

def scan (find : UInt8 → Bytes → Option (ℕ × Bytes)) (start : ℕ) : Bytes → List Hit
  | [] => []
  | byte :: later =>
    match find byte later with
    | some (width, escape) => ⟨start, width, escape⟩ :: scan find (start + 1) later
    | none => scan find (start + 1) later

structure Escaping where
  out : Bytes
  copied : ℕ
  grown : ℕ
  moved : List ℕ
  marks : List ℕ

def escapeHit (raw : Bytes) (state : Escaping) (hit : Hit) : Escaping where
  moved := state.moved ++ (state.marks.takeWhile (· ≤ hit.start)).map (· + state.grown)
  marks := state.marks.dropWhile (· ≤ hit.start)
  out := state.out ++ (raw.drop state.copied).take (hit.start - state.copied) ++ hit.escape
  copied := hit.start + hit.width
  grown := state.grown + (hit.escape.length - hit.width)

def Escaping.finish (raw : Bytes) (state : Escaping) : Bytes × List ℕ :=
  (state.out ++ raw.drop state.copied, state.moved ++ state.marks.map (· + state.grown))

def goEscape (raw : Bytes) (marks : List ℕ) : Bytes × List ℕ :=
  let hits := (scan asciiHit 0 raw).merge (scan wideHit 0 raw) fun first second =>
    decide (first.start < second.start)
  if hits.isEmpty then (raw, marks)
  else (hits.foldl (escapeHit raw) ⟨[], 0, 0, [], marks⟩).finish raw

structure Slot where
  project : Bool
  paths : List String

structure FindingIndex where
  opened : ℕ
  close : ℕ
  spans : List (ℕ × ℕ)
  slots : List Slot

def lexical (path : String) : Option (List Char) :=
  let path := path.toList.map fun letter => if letter = '\\' then '/' else letter
  if path.head? ≠ some '/' then none
  else some ('/' :: ['/'].intercalate ((path.splitOn '/').foldl (fun parts part =>
    if part = [] ∨ part = ['.'] then parts
    else if part = ['.', '.'] then parts.dropLast
    else parts ++ [part]) []))

def Slot.concerns (file : String) (slot : Slot) : Bool :=
  match lexical file, slot.project with
  | some wanted, false => slot.paths.isEmpty || slot.paths.any fun path =>
    path.isEmpty || path == file || (lexical path).all fun path => path == wanted
  | _, _ => true

namespace FindingIndex

def copyFinding (body : Bytes) (file : String) (state : Bytes × Bool)
    (entry : (ℕ × ℕ) × Slot) : Bytes × Bool :=
  if entry.2.concerns file then
    (state.1 ++ (if state.2 then utf8 "\n    " else utf8 ",\n    ") ++
      (body.drop entry.1.1).take (entry.1.2 - entry.1.1), false)
  else state

def onlyFile (index : FindingIndex) (body : Bytes) (file : String) : Option Bytes :=
  if index.spans.isEmpty then some body
  else if index.spans.length ≠ index.slots.length ∨ body.length < index.close then none
  else
    let (out, first) := (index.spans.zip index.slots).foldl (copyFinding body file)
      (body.take index.opened, true)
    if first then
      -- The line that closes the array gives way to the bracket of an empty one.
      if index.close + 4 ≤ body.length then some (out ++ utf8 "]" ++ body.drop (index.close + 4))
      else none
    else some (out ++ body.drop index.close)

end FindingIndex

structure Written where
  buffer : Bytes
  opened : ℕ
  spans : List (ℕ × ℕ)

def marked (first : Bool) (finding : SnapshotFinding Rest) (written : Written) : Written :=
  let before := written.buffer ++ separator first 2
  let buffer := before ++ serializer.finding finding
  ⟨buffer, written.opened, written.spans ++ [(before.length, buffer.length)]⟩

def serializeFindings (first : Bool) : List (SnapshotFinding Rest) → Written → Written
  | [], written => written
  | finding :: later, written =>
    serializeFindings false later (marked serializer first finding written)

def serializeField (first : Bool) (key : String) (value : Bytes) : Bytes :=
  separator first 1 ++ utf8 "\"" ++ utf8 key ++ utf8 "\": " ++ value

section

variable (snapshot : Snapshot Rest Fact Metrics)

def reportHead : Bytes :=
  utf8 "\x7b" ++ (if snapshot.premises.isEmpty then []
    else serializeField true "premises" (serializer.premises snapshot.premises)) ++
  (if snapshot.feedbackFacts.isEmpty then []
    else serializeField snapshot.premises.isEmpty "feedbackFacts"
      (serializer.feedbackFacts snapshot.feedbackFacts)) ++
  serializeField (snapshot.premises.isEmpty && snapshot.feedbackFacts.isEmpty) "status"
    (serializer.status snapshot.status) ++
  serializeField false "findings" []

def reportTail : Bytes :=
  serializeField false "metrics" (serializer.metrics snapshot.metrics) ++ utf8 "\n\x7d"

def serializeReport : Written :=
  let opened := reportHead serializer snapshot ++ utf8 "["
  -- An array known to be empty is closed as it is opened, before its start is marked.
  if snapshot.findings.isEmpty then
    ⟨opened ++ utf8 "]" ++ reportTail serializer snapshot, (opened ++ utf8 "]").length, []⟩
  else
    let written := serializeFindings serializer true snapshot.findings ⟨opened, opened.length, []⟩
    { written with
      buffer := written.buffer ++ utf8 "\n  ]" ++ reportTail serializer snapshot }

end

def pairs : List ℕ → List (ℕ × ℕ)
  | start :: stop :: later => (start, stop) :: pairs later
  | _ => []

def slotOf (finding : SnapshotFinding Rest) : Slot where
  project := decide (finding.subjectKind = "project")
  paths := (finding.primaryLocation :: finding.relatedLocations).map SourceLocation.path

structure JsonReport where
  output : Bytes
  index : FindingIndex

def marksOf (spans : List (ℕ × ℕ)) : List ℕ := spans.flatMap fun span => [span.1, span.2]

def goCompatibleReport (snapshot : Snapshot Rest Fact Metrics) : JsonReport :=
  let written := serializeReport serializer snapshot
  let (output, marks) := goEscape written.buffer (written.opened :: marksOf written.spans)
  { output
    index :=
      { opened := marks.headD 0
        close := if written.spans.isEmpty then 0 else marks.getLastD 0
        spans := pairs marks.tail
        slots := snapshot.findings.map slotOf } }

def hitAt (byte : UInt8) (later : Bytes) : Option (ℕ × Bytes) :=
  (asciiHit byte later).or (wideHit byte later)

variable {byte : UInt8} {raw later escape : Bytes} {width : ℕ}

private theorem wideHit_spec (hit : wideHit byte later = some (width, escape)) : byte = 0xE2 ∧ width = 3 ∧
      escape.length = 6 ∧ ∃ last rest, later = 0x80 :: last :: rest ∧
        (last = 0xA8 ∨ last = 0xA9) := by
  rcases later with _ | ⟨middle, _ | ⟨last, rest⟩⟩
  · simp [wideHit] at hit
  · simp [wideHit] at hit
  · simp only [wideHit, getElem?_cons_zero, getElem?_cons_succ, Option.some.injEq] at hit
    split_ifs at hit with start end8 end9
    all_goals cases hit
    · exact ⟨start.1, rfl, rfl, last, rest, by rw [start.2], .inl end8⟩
    · exact ⟨start.1, rfl, rfl, last, rest, by rw [start.2], .inr end9⟩

private theorem hitAt_spec (hit : hitAt byte later = some (width, escape)) : escape.length = 6 ∧
      (width = 1 ∨ width = 3 ∧ ∃ last rest, later = 0x80 :: last :: rest ∧
        (last = 0xA8 ∨ last = 0xA9)) := by
  rcases Option.or_eq_some_iff.mp hit with ascii | ⟨-, wide⟩
  · unfold asciiHit at ascii
    split_ifs at ascii <;> cases (Option.some.inj ascii) <;>
      exact ⟨rfl, .inl rfl⟩
  · obtain ⟨-, width, length, parts⟩ := wideHit_spec wide
    exact ⟨length, .inr ⟨width, parts⟩⟩

private theorem hitAt_fits (hit : hitAt byte later = some (width, escape)) :
    width - 1 ≤ later.length ∧ 1 ≤ width ∧ width ≤ 3 := by
  rcases (hitAt_spec hit).2 with rfl | ⟨rfl, last, rest, rfl, -⟩
  · omega
  · simp

def escaped : Bytes → Bytes
  | [] => []
  | byte :: later =>
    match hitAt byte later with
    | some (width, escape) => escape ++ escaped (later.drop (width - 1))
    | none => byte :: escaped later
termination_by raw => raw.length
decreasing_by all_goals simp; try omega

private theorem scan_bounds (find : UInt8 → Bytes → Option (ℕ × Bytes)) (raw : Bytes) (start : ℕ) :
    ∀ hit ∈ scan find start raw, start ≤ hit.start ∧ hit.start < start + raw.length := by
  induction raw generalizing start with
  | nil => simp [scan]
  | cons byte later ih =>
    intro hit member
    rw [length_cons]
    rw [scan] at member
    split at member
    · rcases mem_cons.mp member with rfl | member
      · exact ⟨le_rfl, Nat.lt_add_of_pos_right (Nat.succ_pos _)⟩
      · have bounds := ih (start + 1) hit member
        omega
    · have bounds := ih (start + 1) hit member
      omega

private theorem merge_scan {first second : UInt8 → Bytes → Option (ℕ × Bytes)}
    (apart : ∀ byte later, (first byte later).isSome → second byte later = none)
    (raw : Bytes) (start : ℕ) : (scan first start raw).merge (scan second start raw)
        (fun first second => first.start < second.start) =
      scan (fun byte later => (first byte later).or (second byte later)) start raw := by
  induction raw generalizing start with
  | nil => simp [scan]
  | cons byte later ih =>
    rw [scan, scan, scan]
    cases one : first byte later with
    | some hit =>
      have none := apart byte later (by rw [one]; rfl)
      rw [none, ← ih (start + 1)]
      cases others : scan second (start + 1) later with
      | nil => simp
      | cons other rest =>
        have bounds := scan_bounds second later (start + 1) other (by rw [others]; simp)
        rw [cons_merge_cons, if_pos (decide_eq_true (Nat.lt_of_succ_le bounds.1))]
        rfl
    | none =>
      cases two : second byte later with
      | none => exact ih (start + 1)
      | some hit =>
        dsimp only [Option.none_or]
        rw [← ih (start + 1)]
        cases others : scan first (start + 1) later with
        | nil => simp
        | cons other rest =>
          have bounds := scan_bounds first later (start + 1) other (by rw [others]; simp)
          rw [cons_merge_cons, if_neg (by simpa using Nat.le_of_succ_le bounds.1)]

def found (start : ℕ) (raw : Bytes) : List Hit := scan hitAt start raw

private theorem merge_hits (raw : Bytes) : (scan asciiHit 0 raw).merge (scan wideHit 0 raw)
    (fun first second => first.start < second.start) = found 0 raw := by
  refine merge_scan (fun byte later ascii => ?_) raw 0
  cases wide : wideHit byte later with
  | none => rfl
  | some hit =>
    obtain ⟨rfl, -⟩ := wideHit_spec wide
    cases ascii

private theorem found_hit (hit : hitAt byte later = some (width, escape)) (start : ℕ) :
    found start (byte :: later) =
      ⟨start, width, escape⟩ :: found (start + width) (later.drop (width - 1)) := by
  rw [found, scan, hit]
  rcases (hitAt_spec hit).2 with rfl | ⟨rfl, last, rest, rfl, ends⟩
  · rfl
  · -- The second and third byte of a wide character start no hit.
    have inner : hitAt 0x80 (last :: rest) = none := rfl
    have outer : hitAt last rest = none := by rcases ends with rfl | rfl <;> rfl
    simp only [scan, inner, outer]
    rfl

private theorem found_miss (miss : hitAt byte later = none) (start : ℕ) :
    found start (byte :: later) = found (start + 1) later := by
  rw [found, scan, miss]
  rfl

def growth (hits : List Hit) : ℕ := (hits.map fun hit => hit.escape.length - hit.width).sum

private theorem length_escaped (raw : Bytes) (start : ℕ) :
    (escaped raw).length = raw.length + growth (found start raw) := by
  fun_induction escaped raw generalizing start with
  | case1 => rfl
  | case2 byte later width escape hit ih =>
    have long := (hitAt_spec hit).1
    have fits := hitAt_fits hit
    rw [found_hit hit, length_append, ih (start + width), long, length_drop,
      length_cons, growth, growth, map_cons, sum_cons]
    dsimp only
    omega
  | case3 byte later miss ih =>
    rw [found_miss miss, length_cons, length_cons, ih (start + 1)]
    omega

def Plain (raw : Bytes) : Prop := ∀ byte, raw.getLast? = some byte → byte < 0x80

private theorem plain_append (before : Bytes) (some : raw ≠ []) (plain : Plain raw) :
    Plain (before ++ raw) := by
  intro byte last
  rw [getLast?_append_of_ne_nil _ some] at last
  exact plain byte last

private theorem plain_drop (plain : Plain raw) (count : ℕ) : Plain (raw.drop count) := by
  intro byte last
  rw [getLast?_drop] at last
  split_ifs at last
  exact plain byte last

private theorem hitAt_append (plain : Plain (byte :: later)) (after : Bytes) :
    hitAt byte (later ++ after) = hitAt byte later := by
  have same : wideHit byte (later ++ after) = wideHit byte later := by
    rcases later with _ | ⟨middle, _ | ⟨last, rest⟩⟩
    · have narrow : byte ≠ 0xE2 := by
        rintro rfl
        exact absurd (plain 0xE2 rfl) (by decide)
      simp [wideHit, narrow]
    · have narrow : middle ≠ 0x80 := by
        rintro rfl
        exact absurd (plain 0x80 rfl) (by decide)
      simp [wideHit, narrow]
    · rfl
  unfold hitAt
  rw [same]
  rfl

private theorem escaped_append (plain : Plain raw) (after : Bytes) :
    escaped (raw ++ after) = escaped raw ++ escaped after := by
  fun_induction escaped raw with
  | case1 => rfl
  | case2 byte later width escape hit ih =>
    rw [cons_append, escaped, hitAt_append plain, hit]
    dsimp only
    rw [drop_append_of_le_length (hitAt_fits hit).1, ih ?_, List.append_assoc]
    have dropped := plain_drop plain (width - 1 + 1)
    rwa [drop_succ_cons] at dropped
  | case3 byte later miss ih =>
    rw [cons_append, escaped, hitAt_append plain, miss]
    rw [ih (plain_drop plain 1)]
    rfl

private theorem found_append (plain : Plain raw) (after : Bytes) (start : ℕ) :
    found start (raw ++ after) = found start raw ++ found (start + raw.length) after := by
  induction raw generalizing start with
  | nil => rfl
  | cons byte later ih =>
    have rest : found (start + 1) (later ++ after) =
        found (start + 1) later ++ found (start + (byte :: later).length) after := by
      rw [ih (plain_drop plain 1), length_cons, Nat.add_right_comm, Nat.add_assoc]
    simp only [found] at rest ⊢
    rw [cons_append, scan, scan, hitAt_append plain, rest]
    cases hitAt byte later <;> rfl

private theorem escaped_of_miss (miss : ∀ byte ∈ raw, byte ≠ 38 ∧ byte ≠ 60 ∧ byte ≠ 62 ∧ byte ≠ 0xE2) :
    escaped raw = raw := by
  induction raw with
  | nil => rw [escaped]
  | cons byte later ih =>
    obtain ⟨amp, less, greater, wide⟩ := miss byte mem_cons_self
    rw [escaped, hitAt, asciiHit, wideHit, if_neg amp, if_neg less, if_neg greater,
      if_neg fun both => wide both.1]
    dsimp only [Option.or]
    rw [ih fun byte member => miss byte (mem_cons_of_mem _ member)]

private theorem escapeHit_out (raw : Bytes) (copied pending : Bytes) (state : Escaping)
    (at_copied : state.copied = copied.length) :
    (((found (copied.length + pending.length) raw).foldl (escapeHit (copied ++ (pending ++ raw)))
        state).finish (copied ++ (pending ++ raw))).1 = state.out ++ (pending ++ escaped raw) := by
  fun_induction escaped raw generalizing copied pending state with
  | case1 => simp [found, scan, Escaping.finish, at_copied]
  | case2 byte later width escape hit ih =>
    have fits := hitAt_fits hit
    have split : copied ++ (pending ++ byte :: later) =
        (copied ++ (pending ++ byte :: later.take (width - 1))) ++
          ([] ++ later.drop (width - 1)) := by
      simp
    have length : (copied ++ (pending ++ byte :: later.take (width - 1))).length =
        copied.length + pending.length + width := by
      simp
      omega
    rw [found_hit hit, foldl_cons]
    have step := ih (copied ++ (pending ++ byte :: later.take (width - 1))) []
      (escapeHit (copied ++ (pending ++ byte :: later)) state
        ⟨copied.length + pending.length, width, escape⟩) (by rw [length]; rfl)
    rw [← split, length] at step
    refine step.trans ?_
    simp [escapeHit, at_copied]
  | case3 byte later miss ih =>
    have step := ih copied (pending ++ [byte]) state at_copied
    rw [length_append] at step
    rw [found_miss miss]
    simpa [Nat.add_assoc] using step

def movedTo (hits : List Hit) (mark : ℕ) : ℕ :=
  mark + growth (hits.takeWhile fun hit => decide (hit.start < mark))

private theorem movedTo_cons (hit : Hit) (later : List Hit) (grown : ℕ) {marks : List ℕ}
    (sorted : marks.Pairwise (· ≤ ·)) : (marks.takeWhile (· ≤ hit.start)).map (· + grown) ++
        (marks.dropWhile (· ≤ hit.start)).map (fun mark =>
          movedTo later mark + (grown + (hit.escape.length - hit.width))) =
      marks.map fun mark => movedTo (hit :: later) mark + grown := by
  induction marks with
  | nil => rfl
  | cons mark marks ih =>
    obtain ⟨order, rest⟩ := pairwise_cons.mp sorted
    by_cases reached : mark ≤ hit.start
    · have before : movedTo (hit :: later) mark = mark := by
        simp [movedTo, growth, Nat.not_lt.mpr reached]
      simp only [takeWhile_cons, dropWhile_cons, reached, decide_true, if_true,
        map_cons, cons_append, before]
      rw [ih rest]
    · -- The marks are ascending, so those after this one are past the hit too.
      simp only [takeWhile_cons, dropWhile_cons, reached, decide_false,
        Bool.false_eq_true, if_false, map_nil, nil_append]
      refine map_congr_left fun other member => ?_
      have past : hit.start < other := by
        rcases mem_cons.mp member with rfl | member
        · omega
        · have ordered := order other member
          omega
      simp only [movedTo, growth, takeWhile_cons, past, decide_true, if_true, map_cons, sum_cons]
      omega

private theorem escapeHit_marks (raw : Bytes) (hits : List Hit) (state : Escaping)
    (sorted : state.marks.Pairwise (· ≤ ·)) : ((hits.foldl (escapeHit raw) state).finish raw).2 =
      state.moved ++ state.marks.map fun mark => movedTo hits mark + state.grown := by
  induction hits generalizing state with
  | nil => rfl
  | cons hit later ih =>
    rw [foldl_cons, ih _ (sorted.sublist (dropWhile_sublist _)), escapeHit]
    rw [List.append_assoc, movedTo_cons hit later state.grown sorted]

private theorem goEscape_eq (raw : Bytes) {marks : List ℕ} (sorted : marks.Pairwise (· ≤ ·)) :
    goEscape raw marks = (escaped raw, marks.map (movedTo (found 0 raw))) := by
  have folded : ((found 0 raw).foldl (escapeHit raw) ⟨[], 0, 0, [], marks⟩).finish raw =
      (escaped raw, marks.map (movedTo (found 0 raw))) :=
    Prod.ext (escapeHit_out raw [] [] ⟨[], 0, 0, [], marks⟩ rfl)
      (escapeHit_marks raw (found 0 raw) ⟨[], 0, 0, [], marks⟩ sorted)
  rw [goEscape, merge_hits]
  split_ifs with none
  · rw [List.isEmpty_iff.mp none] at folded ⊢
    rw [← folded]
    simp [Escaping.finish]
  · exact folded

private theorem movedTo_append (plain : Plain raw) (after : Bytes) :
    movedTo (found 0 (raw ++ after)) raw.length = (escaped raw).length := by
  have before : ∀ hit ∈ found 0 raw, decide (hit.start < raw.length) := by
    intro hit member
    simpa using (scan_bounds hitAt raw 0 hit member).2
  have behind : (found (0 + raw.length) after).takeWhile
      (fun hit => hit.start < raw.length) = [] := by
    cases hits : found (0 + raw.length) after with
    | nil => rfl
    | cons hit later =>
      have bounds := scan_bounds hitAt after (0 + raw.length) hit
        (by rw [← found, hits]; exact mem_cons_self)
      exact takeWhile_cons_of_neg (by simp; omega)
  rw [movedTo, found_append plain, takeWhile_append_of_pos before, behind, append_nil,
    length_escaped raw 0]

section

variable (text : SnapshotFinding Rest → Bytes)

def items (first : Bool) : List (SnapshotFinding Rest) → Bytes
  | [] => []
  | finding :: later => separator first 2 ++ text finding ++ items false later

def spansOf (before : ℕ) (first : Bool) : List (SnapshotFinding Rest) → List (ℕ × ℕ)
  | [] => []
  | finding :: later =>
    let start := before + (separator first 2).length
    let stop := start + (text finding).length
    (start, stop) :: spansOf stop false later

variable {text} (findings : List (SnapshotFinding Rest)) (before : ℕ) (first : Bool)

private theorem length_spansOf : (spansOf text before first findings).length = findings.length := by
  induction findings generalizing before first with
  | nil => rfl
  | cons finding later ih => exact congrArg (· + 1) (ih _ false)

variable {findings} in
private theorem spansOf_isEmpty (some : findings ≠ []) : (spansOf text before first findings).isEmpty = false := by
  obtain ⟨finding, later, rfl⟩ := exists_cons_of_ne_nil some
  rfl

private theorem marks_sorted :
    (before :: marksOf (spansOf text before first findings)).IsChain (· ≤ ·) := by
  induction findings generalizing before first with
  | nil => exact .singleton _
  | cons finding later ih =>
    exact .cons_cons (Nat.le_add_right _ _) (.cons_cons (Nat.le_add_right _ _) (ih _ false))

private theorem marks_last : (before :: marksOf (spansOf text before first findings)).getLastD 0 =
      before + (items text first findings).length := by
  induction findings generalizing before first with
  | nil => rfl
  | cons finding later ih =>
    have step := ih (before + (separator first 2).length + (text finding).length) false
    rw [items, length_append, length_append]
    refine Eq.trans ?_ (step.trans (by omega))
    simp [spansOf, marksOf]

private theorem pairs_marksOf (spans : List (ℕ × ℕ)) : pairs (marksOf spans) = spans := by
  induction spans with
  | nil => rfl
  | cons span later ih => exact congrArg (span :: ·) ih

private theorem serializeFindings_eq (written : Written) :
    serializeFindings serializer first findings written =
      ⟨written.buffer ++ items serializer.finding first findings, written.opened,
        written.spans ++ spansOf serializer.finding written.buffer.length first findings⟩ := by
  induction findings generalizing first written with
  | nil => simp [serializeFindings, items, spansOf]
  | cons finding later ih =>
    rw [serializeFindings, ih]
    simp [marked, items, spansOf, Nat.add_assoc]

private theorem plain_separator (first : Bool) : Plain (separator first 2) := by
  intro byte last
  cases first <;> cases last <;> decide

private theorem escaped_separator (first : Bool) : escaped (separator first 2) = separator first 2 := by
  refine escaped_of_miss ?_
  cases first <;> decide +kernel

private theorem separator_ne_nil (first : Bool) : separator first 2 ≠ [] := by
  cases first <;> exact cons_ne_nil _ _

variable (plain : ∀ finding, text finding ≠ [] ∧ Plain (text finding))
include plain

private theorem movedTo_spans {before : Bytes} (cut : Plain before) (after : Bytes) :
    (marksOf (spansOf text before.length first findings)).map
        (movedTo (found 0 (before ++ (items text first findings ++ after)))) =
      marksOf (spansOf (fun finding => escaped (text finding)) (escaped before).length first
        findings) := by
  induction findings generalizing first before with
  | nil => rfl
  | cons finding later ih =>
    have opens := plain_append before (separator_ne_nil first) (plain_separator first)
    have closes := plain_append (before ++ separator first 2) (plain finding).1 (plain finding).2
    have start := movedTo_append opens (text finding ++ (items text false later ++ after))
    have stop := movedTo_append closes (items text false later ++ after)
    have rest := ih false closes
    rw [escaped_append opens] at stop rest
    rw [escaped_append cut, escaped_separator] at start stop rest
    simp only [List.append_assoc, length_append, ← Nat.add_assoc] at start stop rest
    simp only [items, spansOf, marksOf, flatMap_cons, map_append, map_cons,
      map_nil, List.append_assoc, start, stop]
    exact congrArg _ rest

private theorem escaped_items (after : Bytes) : escaped (items text first findings ++ after) =
      items (fun finding => escaped (text finding)) first findings ++ escaped after := by
  induction findings generalizing first with
  | nil => rfl
  | cons finding later ih =>
    rw [items, items, List.append_assoc, List.append_assoc,
      escaped_append (plain_separator first), escaped_append (plain finding).2,
      ih false, escaped_separator]
    simp only [List.append_assoc]

end

namespace FindingIndex

variable {text : SnapshotFinding Rest → Bytes} (file : String)

private theorem copyFinding_run (findings : List (SnapshotFinding Rest)) (first : Bool) (before after : Bytes)
    (out : Bytes) (none : Bool) :
    ((spansOf text before.length first findings).zip (findings.map slotOf)).foldl
        (copyFinding (before ++ (items text first findings ++ after)) file) (out, none) =
      (out ++ items text none (findings.filter fun finding => (slotOf finding).concerns file),
        none && (findings.filter fun finding => (slotOf finding).concerns file).isEmpty) := by
  induction findings generalizing first before out none with
  | nil => simp [spansOf, items]
  | cons finding later ih =>
    have rest := ih false (before ++ separator first 2 ++ text finding)
    have slice : ((before ++ (separator first 2 ++ (text finding ++ (items text false later ++
        after)))).drop (before.length + (separator first 2).length)).take
          (before.length + (separator first 2).length + (text finding).length -
            (before.length + (separator first 2).length)) = text finding := by
      rw [Nat.add_sub_cancel_left, ← List.append_assoc, drop_left' (by simp), take_left]
    have between : (if none then utf8 "\n    " else utf8 ",\n    ") = separator none 2 := by
      cases none <;> rfl
    simp only [length_append, List.append_assoc, ← Nat.add_assoc] at rest
    rw [spansOf, map_cons, zip_cons_cons, foldl_cons, copyFinding, items, filter_cons, between]
    simp only [List.append_assoc]
    cases (slotOf finding).concerns file with
    | true =>
      rw [if_pos rfl, if_pos rfl, slice, rest, items]
      simp
    | false =>
      rw [if_neg Bool.false_ne_true, if_neg Bool.false_ne_true]
      exact rest out none

private theorem onlyFile_eq {findings : List (SnapshotFinding Rest)} (some : findings ≠ [])
    (before after : Bytes) :
    let kept := findings.filter fun finding => (slotOf finding).concerns file
    (FindingIndex.mk before.length (before.length + (items text true findings).length)
        (spansOf text before.length true findings) (findings.map slotOf)).onlyFile
          (before ++ (items text true findings ++ (utf8 "\n  ]" ++ after))) file =
      .some (before ++ if kept = [] then utf8 "]" ++ after
        else items text true kept ++ (utf8 "\n  ]" ++ after)) := by
  intro kept
  have line : (utf8 "\n  ]").length = 4 := rfl
  have sized : (before ++ (items text true findings ++ (utf8 "\n  ]" ++ after))).length =
      before.length + (items text true findings).length + 4 + after.length := by
    simp only [length_append, line]
    omega
  have rest (count : ℕ) : (before ++ (items text true findings ++ (utf8 "\n  ]" ++ after))).drop
      (before.length + (items text true findings).length + count) =
        (utf8 "\n  ]" ++ after).drop count := by
    rw [← List.append_assoc, ← length_append, drop_length_add_append]
  rw [onlyFile]
  dsimp only
  rw [if_neg (by rw [spansOf_isEmpty _ _ some]; exact Bool.false_ne_true),
    if_neg (by rw [sized]; simp [length_spansOf]; omega), take_left,
    copyFinding_run file findings true before]
  change (if (true && kept.isEmpty) = true then _ else _) = _
  rw [Bool.true_and]
  by_cases none : kept = []
  · have left : items text true kept = [] := by rw [none]; rfl
    rw [if_pos none, if_pos (List.isEmpty_iff.mpr none), if_pos (by rw [sized]; omega), rest 4, left,
      append_nil, List.append_assoc]
    rfl
  · rw [if_neg none, if_neg (mt List.isEmpty_iff.mp none), List.append_assoc]
    exact congrArg (fun after => Option.some (before ++ (items text true kept ++ after))) (rest 0)

end FindingIndex

private theorem plain_ascii (before : Bytes) (ascii : byte < 0x80) : Plain (before ++ [byte]) := by
  refine plain_append before (cons_ne_nil _ _) fun last same => ?_
  cases same
  exact ascii

private theorem plain_finding (finding : SnapshotFinding Rest) :
    serializer.finding finding ≠ [] ∧ Plain (serializer.finding finding) := by
  obtain ⟨before, same⟩ := serializer.closed finding
  rw [same]
  exact ⟨append_ne_nil_of_right_ne_nil _ (cons_ne_nil _ _), plain_ascii _ (by decide)⟩

section

variable (snapshot : Snapshot Rest Fact Metrics)

private theorem plain_opened : Plain (reportHead serializer snapshot ++ utf8 "[") := plain_ascii _ (by decide)

private theorem report_nil (none : snapshot.findings = []) : (goCompatibleReport serializer snapshot).output =
    escaped (reportHead serializer snapshot ++ utf8 "[") ++ (utf8 "]" ++ escaped (reportTail serializer snapshot)) := by
  have closes : Plain (utf8 "]") := plain_ascii [] (by decide)
  have same : escaped (utf8 "]") = utf8 "]" := escaped_of_miss (by decide +kernel)
  simp only [goCompatibleReport, serializeReport, none, isEmpty_nil, if_true, marksOf, flatMap_nil]
  rw [goEscape_eq _ (pairwise_singleton _ _), List.append_assoc,
    escaped_append (plain_opened serializer snapshot), escaped_append closes, same]

private theorem report_eq (some : snapshot.findings ≠ []) :
    let before := escaped (reportHead serializer snapshot ++ utf8 "[")
    let text (finding : SnapshotFinding Rest) := escaped (serializer.finding finding)
    goCompatibleReport serializer snapshot =
      ⟨before ++ (items text true snapshot.findings ++
          (utf8 "\n  ]" ++ escaped (reportTail serializer snapshot))),
        before.length, before.length + (items text true snapshot.findings).length,
        spansOf text before.length true snapshot.findings, snapshot.findings.map slotOf⟩ := by
  intro before text
  have closes : Plain (utf8 "\n  ]") := plain_ascii (utf8 "\n  ") (by decide)
  have same : escaped (utf8 "\n  ]") = utf8 "\n  ]" := escaped_of_miss (by decide +kernel)
  have filled : snapshot.findings.isEmpty = false := by simpa using some
  have sorted := (@marks_sorted _ serializer.finding snapshot.findings
    (reportHead serializer snapshot ++ utf8 "[").length true).pairwise
  have moved := movedTo_spans snapshot.findings true (plain_finding serializer) (plain_opened serializer snapshot)
    (utf8 "\n  ]" ++ reportTail serializer snapshot)
  have start := movedTo_append (plain_opened serializer snapshot)
    (items serializer.finding true snapshot.findings ++
      (utf8 "\n  ]" ++ reportTail serializer snapshot))
  simp only [goCompatibleReport, serializeReport, filled, Bool.false_eq_true, if_false,
    serializeFindings_eq, List.append_assoc, nil_append, spansOf_isEmpty _ _ some]
  rw [← List.append_assoc (reportHead serializer snapshot), goEscape_eq _ sorted]
  rw [map_cons, start, moved, escaped_append (plain_opened serializer snapshot),
    escaped_items _ _ (plain_finding serializer), escaped_append closes, same, marks_last, tail_cons,
    pairs_marksOf]
  rfl

end

/-- The report cut down to a file is the report of the findings that concern it. -/
theorem only_file_reports (snapshot : Snapshot Rest Fact Metrics) (file : String) :
    (goCompatibleReport serializer snapshot).index.onlyFile (goCompatibleReport serializer snapshot).output file =
      some (goCompatibleReport serializer { snapshot with
        findings := snapshot.findings.filter fun finding =>
          (slotOf finding).concerns file }).output := by
  by_cases filled : snapshot.findings = []
  · have unmarked : (goCompatibleReport serializer snapshot).index.spans = [] := by
      simp only [goCompatibleReport, serializeReport, filled, isEmpty_nil, if_true, marksOf,
        flatMap_nil]
      rw [goEscape_eq _ (pairwise_singleton _ _)]
      rfl
    rw [FindingIndex.onlyFile, unmarked, report_nil serializer snapshot filled,
      report_nil serializer _ (by simp [filled])]
    rfl
  · rw [report_eq serializer snapshot filled, FindingIndex.onlyFile_eq file filled]
    split_ifs with kept
    · rw [report_nil serializer _ kept]
      rfl
    · rw [report_eq serializer _ kept]
      rfl

def kindsOnly : Serializer Unit Unit Unit where
  premises _ := utf8 "[]"
  feedbackFacts _ := utf8 "[]"
  status _ := utf8 "0"
  finding value := utf8 "\x7b" ++ utf8 value.subjectKind ++ utf8 "\x7d"
  metrics _ := utf8 "0"
  closed _ := ⟨_, rfl⟩

def findingAt (kind path : String) : SnapshotFinding Unit := ⟨kind, ⟨path, 0, 0, 0, 0⟩, [], ()⟩

theorem only_file_reports_of_two :
    let first := findingAt "<" "/b.ts"
    let second := findingAt "&" "/a/../a.ts"
    let report := goCompatibleReport kindsOnly ⟨[], [], "", [first, second], ()⟩
    [first, second].filter (fun finding => (slotOf finding).concerns "/a.ts") = [second] ∧
      report.index.onlyFile report.output "/a.ts" =
        some (goCompatibleReport kindsOnly ⟨[], [], "", [second], ()⟩).output := by
  intro first second report
  have kept : [first, second].filter (fun finding => (slotOf finding).concerns "/a.ts") =
      [second] := by
    have apart : (slotOf first).concerns "/a.ts" = false := by decide +kernel
    have own : (slotOf second).concerns "/a.ts" = true := by decide +kernel
    rw [filter_cons, apart, filter_cons, own]
    rfl
  have reports := only_file_reports kindsOnly ⟨[], [], "", [first, second], ()⟩ "/a.ts"
  dsimp only at reports
  rw [kept] at reports
  exact ⟨kept, reports⟩

end SolidChecker.Report.JsonOutput
