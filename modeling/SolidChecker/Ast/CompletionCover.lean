/- source: solid-facts/src/ast/completion_call_cover.rs -/

import Mathlib.Data.Finset.Insert
import Mathlib.Data.List.Forall2

namespace SolidChecker.Ast.CompletionCover

open List

abbrev Span := ℕ × ℕ

mutual

/-- Parentheses and TypeScript wrappers are `sugar`. The parts of any `other` expression are
evaluated in order; the body of a function is none of them. -/
inductive Expression where
  | identifier (span : Span)
  | member (span : Span) (optional : Bool) (object : Expression)
  | call (span : Span) (optional : Bool) (callee : Expression) (arguments : Expressions)
  | sugar (span : Span) (inner : Expression)
  | logical (span : Span) (left right : Expression)
  | conditional (span : Span) (test consequent alternate : Expression)
  | other (span : Span) (parts : Expressions)

inductive Expressions where
  | nil
  | cons (first : Expression) (rest : Expressions)

end

namespace Expression

def peelTsSugar : Expression → Expression
  | .sugar _ inner => inner.peelTsSugar
  | expression => expression

def span : Expression → Span
  | .identifier span | .member span _ _ | .call span _ _ _ | .sugar span _ | .logical span _ _
  | .conditional span _ _ _ | .other span _ => span

def plainCall (expression : Expression) : Option Span :=
  match expression.peelTsSugar with
  | .call span false callee _ => match callee.peelTsSugar with
      | .identifier _ => some span
      | _ => none
  | _ => none

end Expression

mutual

/-- Loops, `try`, `switch`, labels, `with` and jumps are `other`. -/
inductive Statement where
  | blockStatement (body : Statements)
  | ifStatement (test : Expression) (consequent : Statement)
  | ifElseStatement (test : Expression) (consequent alternate : Statement)
  | returnStatement (span : Span) (argument : Option Expression)
  | throwStatement (argument : Expression)
  | expressionStatement (expression : Expression)
  | variableDeclaration (inits : List (Option Expression))
  | functionDeclaration
  | classDeclaration
  | emptyStatement
  | other

inductive Statements where
  | nil
  | cons (first : Statement) (rest : Statements)

end

structure Paths where
  uncovered : Bool
  covered : Bool
deriving DecidableEq

def Paths.union (first second : Paths) : Paths :=
  ⟨first.uncovered || second.uncovered, first.covered || second.covered⟩

structure Cover where
  candidates : Finset Span
  deadReturns : Finset Span
  returnSites : Bool
  throwsExit : Bool

structure Walk where
  returns : Paths
  budget : ℕ

section

variable (cover : Cover)

def candidate (expression : Expression) : Bool :=
  !cover.returnSites && expression.plainCall.any (decide <| · ∈ cover.candidates)

def returnHit (argument : Option Expression) : Bool :=
  argument.any fun value =>
    if cover.returnSites then decide (value.peelTsSugar.span ∈ cover.candidates)
    else candidate cover value

mutual

def statements : Statements → Paths → ℕ → Walk → Option (Paths × Walk)
  | .nil, paths, _, walk => some (paths, walk)
  | .cons first rest, paths, depth, walk =>
    if paths = ⟨false, false⟩ ∨ paths = ⟨false, true⟩ then some (paths, walk)
    else (statement first paths depth walk).bind fun (paths, walk) =>
      statements rest paths depth walk

def statement : Statement → Paths → ℕ → Walk → Option (Paths × Walk)
  | node, paths, depth, walk =>
    if 32 < depth ∨ walk.budget = 0 then none
    else
      let walk := { walk with budget := walk.budget - 1 }
      match node with
      | .blockStatement body => statements body paths (depth + 1) walk
      | .ifStatement _ consequent =>
        (statement consequent paths (depth + 1) walk).map fun (yes, walk) =>
          (yes.union paths, walk)
      | .ifElseStatement _ consequent alternate =>
        (statement consequent paths (depth + 1) walk).bind fun (yes, walk) =>
          (statement alternate paths (depth + 1) walk).map fun (no, walk) => (yes.union no, walk)
      | .returnStatement span argument =>
        if span ∈ cover.deadReturns then some (paths, walk)
        else some (⟨false, false⟩, { walk with
          returns := walk.returns.union
            (if returnHit cover argument then ⟨false, true⟩ else paths) })
      | .throwStatement _ => some (⟨false, false⟩, { walk with
          returns := if cover.throwsExit then walk.returns.union paths else walk.returns })
      | .expressionStatement expression =>
        some (if candidate cover expression then ⟨false, true⟩ else paths, walk)
      | .variableDeclaration inits =>
        some (if inits.any (·.any (candidate cover)) then ⟨false, true⟩ else paths, walk)
      | .classDeclaration => if cover.throwsExit then none else some (paths, walk)
      | .functionDeclaration | .emptyStatement => some (paths, walk)
      | .other => none

end

def completionCover (body : Statements) : Option Bool :=
  if cover.candidates = ∅ then none
  else (statements cover body ⟨true, false⟩ 0 ⟨⟨false, false⟩, 4096⟩).map
    fun (fallthrough, walk) => decide (fallthrough.union walk.returns = ⟨false, true⟩)

end

def completionCallCover (candidates unreachableReturns : Finset Span) : Statements → Option Bool :=
  completionCover ⟨candidates, unreachableReturns, false, false⟩

def completionReturnCover (candidates : Finset Span) : Statements → Option Bool :=
  completionCover ⟨candidates, ∅, true, false⟩

def completionCallCoverIncludingThrows (candidates : Finset Span) : Statements → Option Bool :=
  completionCover ⟨candidates, ∅, false, true⟩

/-! ### What a path executes -/

mutual

/-- The calls that an evaluation executes, and whether it is cut at an optional link, which skips
the rest of the chain. -/
def Expression.Evaluates : Expression → List Span → Bool → Prop
  | .identifier _, calls, cut => calls = [] ∧ cut = false
  | .member _ optional object, calls, cut => object.Evaluates calls cut ∨
    optional = true ∧ cut = true ∧ object.Evaluates calls false
  | .call span optional callee arguments, calls, cut =>
    cut = true ∧ (callee.Evaluates calls true ∨ optional = true ∧ callee.Evaluates calls false) ∨
    cut = false ∧ ∃ before inside, callee.Evaluates before false ∧ arguments.Evaluates inside ∧
      calls = before ++ inside ++ [span]
  | .sugar _ inner, calls, cut => inner.Evaluates calls cut
  | .logical _ left right, calls, cut => cut = false ∧ ∃ before after,
    (∃ cut, left.Evaluates before cut) ∧ (after = [] ∨ ∃ cut, right.Evaluates after cut) ∧
      calls = before ++ after
  | .conditional _ test consequent alternate, calls, cut => cut = false ∧ ∃ before after,
    (∃ cut, test.Evaluates before cut) ∧
      ((∃ cut, consequent.Evaluates after cut) ∨ ∃ cut, alternate.Evaluates after cut) ∧
      calls = before ++ after
  | .other _ parts, calls, cut => cut = false ∧ parts.Evaluates calls

def Expressions.Evaluates : Expressions → List Span → Prop
  | .nil, calls => calls = []
  | .cons first rest, calls => ∃ before after, (∃ cut, first.Evaluates before cut) ∧
    rest.Evaluates after ∧ calls = before ++ after

end

inductive Completion where
  | normal
  | returned (value : Option Span)
  | threw
deriving DecidableEq

abbrev Run := List Span × Completion

def Executes (expression : Expression) (calls : List Span) : Prop :=
  ∃ cut, expression.Evaluates calls cut

def Evaluated (items : List Expression) (completion : Completion) (run : Run) : Prop :=
  ∃ calls, items.Forall₂ Executes calls ∧ run = (calls.flatten, completion)

def returned (argument : Option Expression) : Completion :=
  .returned (argument.map fun value => value.peelTsSugar.span)

section

variable (dead : Finset Span)

mutual

def Statement.Runs : Statement → Run → Prop
  | .blockStatement body, run => body.Runs run
  | .ifStatement test consequent, run => ∃ tested later, Executes test tested ∧
    (consequent.Runs later ∨ later = ([], .normal)) ∧ run = (tested ++ later.1, later.2)
  | .ifElseStatement test consequent alternate, run => ∃ tested later, Executes test tested ∧
    (consequent.Runs later ∨ alternate.Runs later) ∧ run = (tested ++ later.1, later.2)
  | .returnStatement span argument, run => if span ∈ dead then run = ([], .normal)
    else Evaluated argument.toList (returned argument) run
  | .throwStatement argument, run => Evaluated [argument] .threw run
  | .expressionStatement expression, run => Evaluated [expression] .normal run
  | .variableDeclaration inits, run => Evaluated (inits.filterMap id) .normal run
  | .functionDeclaration, run | .classDeclaration, run | .emptyStatement, run | .other, run =>
    run = ([], .normal)

def Statements.Runs : Statements → Run → Prop
  | .nil, run => run = ([], .normal)
  | .cons first rest, run => first.Runs run ∧ run.2 ≠ .normal ∨
    ∃ calls later, first.Runs (calls, .normal) ∧ rest.Runs later ∧ run = (calls ++ later.1, later.2)

end

end

section

mutual

private theorem Expression.exists_evaluates : ∀ expression : Expression,
    ∃ calls, expression.Evaluates calls false
  | .identifier _ => ⟨_, rfl, rfl⟩
  | .member _ _ object => object.exists_evaluates.imp fun _ => Or.inl
  | .call _ _ callee arguments => by
    obtain ⟨before, first⟩ := callee.exists_evaluates
    obtain ⟨inside, later⟩ := arguments.exists_evaluates
    exact ⟨_, .inr ⟨rfl, before, inside, first, later, rfl⟩⟩
  | .sugar _ inner => inner.exists_evaluates
  | .logical _ left _ => by
    obtain ⟨before, first⟩ := left.exists_evaluates
    exact ⟨_, rfl, before, [], ⟨_, first⟩, .inl rfl, rfl⟩
  | .conditional _ test consequent _ => by
    obtain ⟨before, first⟩ := test.exists_evaluates
    obtain ⟨after, later⟩ := consequent.exists_evaluates
    exact ⟨_, rfl, before, after, ⟨_, first⟩, .inl ⟨_, later⟩, rfl⟩
  | .other _ parts => parts.exists_evaluates.imp fun _ evaluates => ⟨rfl, evaluates⟩

private theorem Expressions.exists_evaluates : ∀ expressions : Expressions,
    ∃ calls, expressions.Evaluates calls
  | .nil => ⟨_, rfl⟩
  | .cons first rest => by
    obtain ⟨before, here⟩ := first.exists_evaluates
    obtain ⟨after, later⟩ := rest.exists_evaluates
    exact ⟨_, before, after, ⟨_, here⟩, later, rfl⟩

end

variable {expression : Expression} {calls : List Span}

private theorem exists_executes (expression : Expression) : ∃ calls, Executes expression calls :=
  expression.exists_evaluates.imp fun _ evaluates => ⟨_, evaluates⟩

private theorem evaluates_peel {cut : Bool} :
    expression.Evaluates calls cut ↔ expression.peelTsSugar.Evaluates calls cut := by
  fun_induction Expression.peelTsSugar expression with
  | case1 _ inner ih => exact ih
  | case2 => exact Iff.rfl

private theorem plainCall_executed {span : Span} (plain : expression.plainCall = some span)
    (executes : Executes expression calls) : span ∈ calls := by
  obtain ⟨cut, evaluates⟩ := executes
  rw [evaluates_peel] at evaluates
  unfold Expression.plainCall at plain
  split at plain
  · rename_i callee arguments found
    split at plain
    · rename_i identifier
      cases plain
      rw [found] at evaluates
      rcases evaluates with ⟨-, skipped | ⟨optional, -⟩⟩ | ⟨-, before, inside, -, -, rfl⟩
      · rw [evaluates_peel, identifier] at skipped
        exact nomatch skipped.2
      · exact nomatch optional
      · exact mem_append_right _ (mem_singleton_self _)
    · cases plain
  · cases plain

end

mutual

def Statement.expressions : Statement → List (Bool × Expression)
  | .blockStatement body => body.expressions
  | .ifStatement test consequent => (false, test) :: consequent.expressions
  | .ifElseStatement test consequent alternate =>
    (false, test) :: (consequent.expressions ++ alternate.expressions)
  | .returnStatement _ argument => argument.toList.map (true, ·)
  | .throwStatement argument => [(false, argument)]
  | .expressionStatement expression => [(true, expression)]
  | .variableDeclaration inits => (inits.filterMap id).map (true, ·)
  | _ => []

def Statements.expressions : Statements → List (Bool × Expression)
  | .nil => []
  | .cons first rest => first.expressions ++ rest.expressions

end

/-- Where every evaluation of an expression executes a candidate, the expression is one: a whole
statement, initialiser or returned value that calls an identifier. -/
def Direct (candidates : Finset Span) (item : Bool × Expression) : Prop :=
  item.1 = true ∧ (∃ call ∈ candidates, item.2.plainCall = some call) ∨
    ∃ calls, Executes item.2 calls ∧ ∀ call ∈ calls, call ∉ candidates

section

variable (cover : Cover)

def Covered (run : Run) : Prop :=
  if cover.returnSites = true then ∃ value ∈ cover.candidates, run.2 = .returned (some value)
  else ∃ call ∈ run.1, call ∈ cover.candidates

def Completes (completion : Completion) : Prop := completion = .threw → cover.throwsExit = true

def Leaves (completion : Completion) : Prop := completion ≠ .normal ∧ Completes cover completion

def Uncovered (ends : Completion → Prop) (runs : Run → Prop) : Prop :=
  ∃ run, runs run ∧ ends run.2 ∧ ¬ Covered cover run

def anyRun : Cover := ⟨∅, ∅, false, false⟩

/-- What a walk leaves of live paths some of which are not covered: the uncovered paths are those of
the statement, and some path is live where the walk follows one. -/
structure Answer (runs followed : Run → Prop) (returns after left : Paths) : Prop where
  falls : after.uncovered = true ↔ Uncovered cover (· = .normal) runs
  exits : left.uncovered = true ↔ returns.uncovered = true ∨ Uncovered cover (Leaves cover) runs
  reaches : after ≠ ⟨false, false⟩ ↔ Uncovered anyRun (· = .normal) followed
  leaves : left ≠ ⟨false, false⟩ ↔ returns ≠ ⟨false, false⟩ ∨ Uncovered anyRun (Leaves cover) followed

def GoesOn (dead : Finset Span) (node : Statement) : Prop :=
  Uncovered cover (· = .normal) (node.Runs dead)

open Classical in
mutual

noncomputable def Statement.cut (goesOn : Statement → Prop) : Statement → Statement
  | .blockStatement body => .blockStatement (body.cut goesOn)
  | .ifStatement test consequent => .ifStatement test (consequent.cut goesOn)
  | .ifElseStatement test consequent alternate =>
    .ifElseStatement test (consequent.cut goesOn) (alternate.cut goesOn)
  | node => node

noncomputable def Statements.cut (goesOn : Statement → Prop) : Statements → Statements
  | .nil => .nil
  | .cons first rest => .cons (first.cut goesOn) (if goesOn first then rest.cut goesOn else .nil)

end

variable {cover} {dead : Finset Span} {first : Statement} {rest : Statements}
  {paths returns : Paths} {calls : List Span} {run : Run} {runs followed : Run → Prop}

private theorem union_eq_none {first second : Paths} : first.union second = ⟨false, false⟩ ↔
    first = ⟨false, false⟩ ∧ second = ⟨false, false⟩ := by
  obtain ⟨_ | _, _ | _⟩ := first <;> obtain ⟨_ | _, _ | _⟩ := second <;> decide

private theorem covered_append {later : Run} : Covered cover (calls ++ later.1, later.2) ↔
      Covered cover (calls, .normal) ∨ Covered cover later := by
  unfold Covered
  split
  · simp
  · simp [or_and_right, exists_or]

private theorem uncovered_cons (ends : Completion → Prop) :
    Uncovered cover ends ((Statements.cons first rest).Runs dead) ↔
      Uncovered cover (fun completion => completion ≠ .normal ∧ ends completion) (first.Runs dead) ∨
      GoesOn cover dead first ∧ Uncovered cover ends (rest.Runs dead) := by
  constructor
  · rintro ⟨run, ⟨here, left⟩ | ⟨calls, later, here, there, rfl⟩, ended, uncovered⟩
    · exact .inl ⟨run, here, ⟨left, ended⟩, uncovered⟩
    · rw [covered_append, not_or] at uncovered
      exact .inr ⟨⟨_, here, rfl, uncovered.1⟩, later, there, ended, uncovered.2⟩
  · rintro (⟨run, here, ⟨left, ended⟩, uncovered⟩ |
      ⟨⟨⟨calls, _⟩, here, rfl, uncovered⟩, later, there, ended, still⟩)
    · exact ⟨run, .inl ⟨here, left⟩, ended, uncovered⟩
    · exact ⟨_, .inr ⟨calls, later, here, there, rfl⟩, ended,
        covered_append.not.mpr (not_or.mpr ⟨uncovered, still⟩)⟩

private theorem not_covered : ¬ Covered anyRun run := by
  simp [Covered, anyRun]

private theorem uncovered_any {ends : Completion → Prop} :
    Uncovered anyRun ends runs ↔ ∃ run, runs run ∧ ends run.2 := by
  simp only [Uncovered, not_covered, not_false_eq_true, and_true]

private theorem uncovered_or {left right : Run → Prop} (ends : Completion → Prop) :
    Uncovered cover ends (fun run => left run ∨ right run) ↔
      Uncovered cover ends left ∨ Uncovered cover ends right := by
  simp only [Uncovered, or_and_right, exists_or]

private theorem leaves_iff : (fun completion => completion ≠ .normal ∧ Leaves cover completion) =
    Leaves cover :=
  funext fun _ => propext and_self_left

/-- The paths of a simple statement: all end alike, and either all are covered or one is not. -/
structure Simple (cover : Cover) (runs : Run → Prop) (completion : Completion) (hit : Bool) :
    Prop where
  some_run : ∃ run, runs run
  ends : ∀ run, runs run → run.2 = completion
  covers : hit = true → ∀ run, runs run → Covered cover run
  avoids : hit = false → ∃ run, runs run ∧ ¬ Covered cover run

section

variable {completion : Completion} {hit : Bool} (simple : Simple cover runs completion hit)

include simple

private theorem Simple.uncovered (ends : Completion → Prop) :
    Uncovered cover ends runs ↔ hit = false ∧ ends completion := by
  constructor
  · rintro ⟨run, ran, ended, uncovered⟩
    rw [simple.ends run ran] at ended
    exact ⟨Bool.eq_false_iff.mpr fun held => uncovered (simple.covers held run ran), ended⟩
  · rintro ⟨miss, ended⟩
    obtain ⟨run, ran, uncovered⟩ := simple.avoids miss
    exact ⟨run, ran, (simple.ends run ran).symm ▸ ended, uncovered⟩

private theorem Simple.ended (ends : Completion → Prop) : Uncovered anyRun ends runs ↔ ends completion := by
  obtain ⟨run, ran⟩ := simple.some_run
  rw [uncovered_any]
  constructor
  · rintro ⟨run, ran, ended⟩
    exact simple.ends run ran ▸ ended
  · exact fun ended => ⟨run, ran, (simple.ends run ran).symm ▸ ended⟩

end

variable {hit : Bool} (live : paths.uncovered = true)

include live

private theorem answer_normal (simple : Simple cover runs .normal hit) :
    Answer cover runs runs returns (if hit then ⟨false, true⟩ else paths) returns := by
  obtain ⟨_, covered⟩ := paths
  cases live
  cases hit <;> refine ⟨?_, ?_, ?_, ?_⟩ <;> simp [simple.uncovered, simple.ended, Leaves]

private theorem answer_returned {value : Option Span} (simple : Simple cover runs (.returned value) hit) :
    Answer cover runs runs returns ⟨false, false⟩
      (returns.union (if hit then ⟨false, true⟩ else paths)) := by
  obtain ⟨_, covered⟩ := paths
  cases live
  cases hit <;> refine ⟨?_, ?_, ?_, ?_⟩ <;>
    simp [simple.uncovered, simple.ended, Leaves, Completes, Paths.union]

private theorem answer_threw (simple : Simple cover runs .threw false) :
    Answer cover runs runs returns ⟨false, false⟩
      (if cover.throwsExit then returns.union paths else returns) := by
  obtain ⟨_, covered⟩ := paths
  cases live
  cases exit : cover.throwsExit <;> refine ⟨?_, ?_, ?_, ?_⟩ <;>
    simp [simple.uncovered, simple.ended, Leaves, Completes, Paths.union, exit]

omit live

private theorem Answer.union {left right left' right' : Run → Prop} {yes no between after : Paths}
    (first : Answer cover left left' returns yes between)
    (second : Answer cover right right' between no after) :
    Answer cover (fun run => left run ∨ right run) (fun run => left' run ∨ right' run) returns
      (yes.union no) after := by
  refine ⟨?_, ?_, ?_, ?_⟩
  · rw [uncovered_or, ← first.falls, ← second.falls, Paths.union, Bool.or_eq_true]
  · rw [uncovered_or, ← or_assoc, ← first.exits, ← second.exits]
  · rw [uncovered_or, ← first.reaches, ← second.reaches, ne_eq, union_eq_none, not_and_or]
  · rw [uncovered_or, ← or_assoc, ← first.leaves, ← second.leaves]

def Tested (test : Expression) (runs : Run → Prop) (run : Run) : Prop :=
  ∃ tested later, Executes test tested ∧ runs later ∧ run = (tested ++ later.1, later.2)

private theorem uncovered_tested {test : Expression}
    (free : ∃ tested, Executes test tested ∧ ¬ Covered cover (tested, .normal))
    (ends : Completion → Prop) :
    Uncovered cover ends (Tested test runs) ↔ Uncovered cover ends runs := by
  constructor
  · rintro ⟨-, ⟨tested, later, -, ran, rfl⟩, ended, miss⟩
    exact ⟨later, ran, ended, fun held => miss (covered_append.mpr (.inr held))⟩
  · rintro ⟨later, ran, ended, miss⟩
    obtain ⟨tested, executes, avoids⟩ := free
    exact ⟨_, ⟨tested, later, executes, ran, rfl⟩, ended,
      covered_append.not.mpr (not_or.mpr ⟨avoids, miss⟩)⟩

private theorem Answer.tested {test : Expression} {after left : Paths}
    (answer : Answer cover runs followed returns after left)
    (free : ∃ tested, Executes test tested ∧ ¬ Covered cover (tested, .normal)) :
    Answer cover (Tested test runs) (Tested test followed) returns after left := by
  have ended (ends : Completion → Prop) : Uncovered anyRun ends (Tested test followed) ↔ Uncovered anyRun ends followed :=
    uncovered_tested (free.imp fun _ held => ⟨held.1, not_covered⟩) ends
  exact ⟨answer.falls.trans (uncovered_tested free _).symm,
    answer.exits.trans (or_congr_right (uncovered_tested free _).symm),
    answer.reaches.trans (ended _).symm, answer.leaves.trans (or_congr_right (ended _).symm)⟩

private theorem not_uncovered : ¬ Uncovered cover
    (fun completion => completion ≠ .normal ∧ completion = .normal) runs :=
  fun ⟨_, _, ⟨left, normal⟩, _⟩ => left normal

variable {first' : Statement} {middle between : Paths}
  (one : Answer cover (first.Runs dead) (first'.Runs dead) returns middle between)

include one

private theorem Answer.cons {rest' : Statements} {after left : Paths} (goes : middle.uncovered = true)
    (others : Answer cover (rest.Runs dead) (rest'.Runs dead) between after left) :
    Answer cover ((Statements.cons first rest).Runs dead) ((Statements.cons first' rest').Runs dead)
      returns after left := by
  have on : GoesOn cover dead first := one.falls.mp goes
  have through : GoesOn anyRun dead first' :=
    one.reaches.mp fun none => by simp [none] at goes
  refine ⟨?_, ?_, ?_, ?_⟩
  · rw [others.falls, uncovered_cons, or_iff_right not_uncovered, and_iff_right on]
  · rw [others.exits, one.exits, uncovered_cons, leaves_iff, or_assoc, and_iff_right on]
  · rw [others.reaches, uncovered_cons, or_iff_right not_uncovered, and_iff_right through]
  · rw [others.leaves, one.leaves, uncovered_cons, leaves_iff, or_assoc, and_iff_right through]

private theorem Answer.stop (stopped : middle.uncovered = false) :
    Answer cover ((Statements.cons first rest).Runs dead) ((Statements.cons first' .nil).Runs dead)
      returns middle between := by
  have off : ¬ GoesOn cover dead first := fun held =>
    Bool.eq_false_iff.mp stopped (one.falls.mpr held)
  have last (ends : Completion → Prop) : Uncovered anyRun ends (Statements.nil.Runs dead) ↔ ends .normal := by
    simp [uncovered_any, Statements.Runs]
  refine ⟨?_, ?_, ?_, ?_⟩
  · rw [stopped, uncovered_cons, or_iff_right not_uncovered]
    exact ⟨nofun, fun held => absurd held.1 off⟩
  · have none : ¬ (GoesOn cover dead first ∧ Uncovered cover (Leaves cover) (rest.Runs dead)) :=
      fun held => off held.1
    rw [one.exits, uncovered_cons, leaves_iff, or_iff_left none]
  · rw [one.reaches, uncovered_cons, or_iff_right not_uncovered, last, and_iff_left rfl, GoesOn]
  · have none : ¬ (GoesOn anyRun dead first' ∧ Leaves cover .normal) :=
      fun held => held.2.1 rfl
    rw [one.leaves, uncovered_cons, leaves_iff, last, or_iff_left none]

end

section

mutual

def Statement.Fits : ℕ → Statement → Prop
  | depth, .blockStatement body => depth ≤ 32 ∧ body.Fits (depth + 1)
  | depth, .ifStatement _ consequent => depth ≤ 32 ∧ consequent.Fits (depth + 1)
  | depth, .ifElseStatement _ consequent alternate =>
    depth ≤ 32 ∧ consequent.Fits (depth + 1) ∧ alternate.Fits (depth + 1)
  | _, .classDeclaration | _, .other => False
  | depth, _ => depth ≤ 32

def Statements.Fits : ℕ → Statements → Prop
  | _, .nil => True
  | depth, .cons first rest => first.Fits depth ∧ rest.Fits depth

end

mutual

def Statement.size : Statement → ℕ
  | .blockStatement body => body.size + 1
  | .ifStatement _ consequent => consequent.size + 1
  | .ifElseStatement _ consequent alternate => consequent.size + alternate.size + 1
  | _ => 1

def Statements.size : Statements → ℕ
  | .nil => 0
  | .cons first rest => first.size + rest.size

end

variable {cover : Cover} {dead : Finset Span}

variable (cover) in
def Meets (item : Bool × Expression) : Prop :=
  cover.returnSites = false → Direct cover.candidates item

section

variable {items : List Expression}

private theorem exists_avoiding {candidates : Finset Span} (free : ∀ item ∈ items, ∃ calls,
      Executes item calls ∧ ∀ call ∈ calls, call ∉ candidates) :
    ∃ logs, items.Forall₂ Executes logs ∧ ∀ call ∈ logs.flatten, call ∉ candidates := by
  induction items with
  | nil => exact ⟨[], .nil, nofun⟩
  | cons item items ih =>
    obtain ⟨⟨calls, executes, avoids⟩, later⟩ := forall_mem_cons.mp free
    obtain ⟨logs, all, avoid⟩ := ih later
    exact ⟨calls :: logs, .cons executes all, forall_mem_append.mpr ⟨avoids, avoid⟩⟩

private theorem some_evaluated (items : List Expression) (completion : Completion) :
    ∃ run, Evaluated items completion run := by
  have free : ∀ item ∈ items, ∃ calls, Executes item calls ∧ ∀ call ∈ calls, call ∉ (∅ : Finset Span) :=
    fun item _ => (exists_executes item).imp fun _ executes =>
      ⟨executes, fun call _ => Finset.notMem_empty call⟩
  obtain ⟨logs, all, -⟩ := exists_avoiding free
  exact ⟨_, logs, all, rfl⟩

private theorem evaluated_single {item : Expression} {completion : Completion} {run : Run} :
    Evaluated [item] completion run ↔ ∃ calls, Executes item calls ∧ run = (calls, completion) := by
  constructor
  · rintro ⟨logs, all, rfl⟩
    obtain ⟨calls, rest, executes, last, rfl⟩ := forall₂_cons_left_iff.mp all
    cases last
    exact ⟨calls, executes, by rw [flatten_cons, flatten_nil, append_nil]⟩
  · rintro ⟨calls, executes, rfl⟩
    exact ⟨[calls], .cons executes .nil, by rw [flatten_cons, flatten_nil, append_nil]⟩

private theorem mem_evaluated {item : Expression} {span : Span} (member : item ∈ items)
    (plain : item.plainCall = some span) {logs : List (List Span)}
    (all : items.Forall₂ Executes logs) : span ∈ logs.flatten := by
  induction all with
  | nil => cases member
  | cons executes _ ih =>
    rcases mem_cons.mp member with rfl | later
    · exact mem_append_left _ (plainCall_executed plain executes)
    · exact mem_append_right _ (ih later)

private theorem simple_calls (sites : cover.returnSites = false) (completion : Completion)
    (direct : ∀ item ∈ items, Direct cover.candidates (true, item)) :
    Simple cover (Evaluated items completion) completion (items.any (candidate cover)) := by
  have covered (run : Run) : Covered cover run ↔ ∃ call ∈ run.1, call ∈ cover.candidates := by
    simp [Covered, sites]
  refine ⟨some_evaluated _ _, ?_, fun hit => ?_, fun miss => ?_⟩
  · rintro - ⟨logs, -, rfl⟩
    rfl
  · rintro - ⟨logs, all, rfl⟩
    obtain ⟨item, member, held⟩ := any_eq_true.mp hit
    simp only [candidate, sites, Bool.not_false, Bool.true_and, Option.any_eq_true,
      decide_eq_true_eq] at held
    obtain ⟨span, plain, chosen⟩ := held
    exact (covered _).mpr ⟨span, mem_evaluated member plain all, chosen⟩
  · have free : ∀ item ∈ items, ∃ calls, Executes item calls ∧
        ∀ call ∈ calls, call ∉ cover.candidates := by
      intro item member
      refine (direct item member).resolve_left ?_
      rintro ⟨-, span, chosen, plain⟩
      exact any_eq_false.mp miss item member (by simp [candidate, sites, plain, chosen])
    obtain ⟨logs, all, avoids⟩ := exists_avoiding free
    exact ⟨_, ⟨logs, all, rfl⟩, fun held => by
      obtain ⟨call, member, chosen⟩ := (covered _).mp held
      exact avoids call member chosen⟩

private theorem simple_normal (meets : ∀ item ∈ items, Meets cover (true, item)) :
    Simple cover (Evaluated items .normal) .normal (items.any (candidate cover)) := by
  cases sites : cover.returnSites with
  | false => exact simple_calls sites _ fun item member => meets item member sites
  | true =>
    have none : items.any (candidate cover) = false := by simp [candidate, sites]
    rw [none]
    obtain ⟨run, ran⟩ := some_evaluated items .normal
    refine ⟨⟨run, ran⟩, ?_, nofun, fun _ => ⟨run, ran, ?_⟩⟩
    · rintro - ⟨logs, -, rfl⟩
      rfl
    · obtain ⟨logs, -, rfl⟩ := ran
      simp [Covered, sites]

private theorem simple_returned {argument : Option Expression}
    (meets : ∀ value ∈ argument.toList, Meets cover (true, value)) :
    Simple cover (Evaluated argument.toList (returned argument)) (returned argument)
      (returnHit cover argument) := by
  cases sites : cover.returnSites with
  | false =>
    have same : returnHit cover argument = argument.toList.any (candidate cover) := by
      cases argument <;> simp [returnHit, sites]
    rw [same]
    exact simple_calls sites _ fun item member => meets item member sites
  | true =>
    have covered : ∀ run, Evaluated argument.toList (returned argument) run →
        (Covered cover run ↔ returnHit cover argument = true) := by
      rintro - ⟨logs, -, rfl⟩
      cases argument <;> simp [Covered, returned, returnHit, sites]
    obtain ⟨run, ran⟩ := some_evaluated argument.toList (returned argument)
    refine ⟨⟨run, ran⟩, ?_, fun hit run ran => (covered run ran).mpr hit, fun miss => ⟨run, ran, ?_⟩⟩
    · rintro - ⟨logs, -, rfl⟩
      rfl
    · rw [covered run ran, miss]
      exact Bool.false_ne_true

private theorem free_aside {item : Expression} (meets : Meets cover (false, item)) :
    ∃ calls, Executes item calls ∧ ∀ completion, (∀ value, completion ≠ .returned value) →
      ¬ Covered cover (calls, completion) := by
  cases sites : cover.returnSites with
  | false =>
    obtain ⟨calls, executes, avoids⟩ := (meets sites).resolve_left fun held => nomatch held.1
    exact ⟨calls, executes, fun _ _ => by simpa [Covered, sites] using avoids⟩
  | true =>
    obtain ⟨calls, executes⟩ := exists_executes item
    refine ⟨calls, executes, fun completion other => ?_⟩
    simp [Covered, sites, other]

private theorem simple_thrown {item : Expression} (meets : Meets cover (false, item)) :
    Simple cover (Evaluated [item] .threw) .threw false := by
  obtain ⟨calls, executes, avoids⟩ := free_aside meets
  have ran : Evaluated [item] .threw (calls, .threw) := evaluated_single.mpr ⟨calls, executes, rfl⟩
  refine ⟨⟨_, ran⟩, ?_, nofun, fun _ => ⟨_, ran, avoids _ nofun⟩⟩
  rintro - ⟨logs, -, rfl⟩
  rfl

private theorem simple_nil : Simple cover (· = ([], .normal)) .normal false := by
  refine ⟨⟨_, rfl⟩, ?_, nofun, fun _ => ⟨_, rfl, by simp [Covered]⟩⟩
  rintro - rfl
  rfl

end

private theorem entered {node : Statement} {depth : ℕ} {walk : Walk} (fits : node.Fits depth)
    (enough : node.size ≤ walk.budget) : ¬ (32 < depth ∨ walk.budget = 0) := by
  cases node <;> simp only [Statement.Fits, Statement.size] at fits enough <;> omega

mutual

private theorem Statement.uncovered_cut : ∀ (node : Statement) (run : Run), ¬ Covered cover run →
    ((node.cut (GoesOn cover dead)).Runs dead run ↔ node.Runs dead run)
  | .blockStatement body, run, uncovered => body.uncovered_cut run uncovered
  | .ifStatement _ consequent, run, uncovered => by
    refine exists_congr fun tested => exists_congr fun later => and_congr_right fun _ =>
      and_congr_left fun same => or_congr_left (consequent.uncovered_cut later fun held => ?_)
    exact uncovered (same ▸ covered_append.mpr (.inr held))
  | .ifElseStatement _ consequent alternate, run, uncovered => by
    refine exists_congr fun tested => exists_congr fun later => and_congr_right fun _ =>
      and_congr_left fun same => ?_
    have free : ¬ Covered cover later := fun held =>
      uncovered (same ▸ covered_append.mpr (.inr held))
    exact or_congr (consequent.uncovered_cut later free) (alternate.uncovered_cut later free)
  | .returnStatement _ _, _, _ | .throwStatement _, _, _ | .expressionStatement _, _, _
  | .variableDeclaration _, _, _ | .functionDeclaration, _, _ | .classDeclaration, _, _
  | .emptyStatement, _, _ | .other, _, _ => Iff.rfl

private theorem Statements.uncovered_cut : ∀ (body : Statements) (run : Run), ¬ Covered cover run →
    ((body.cut (GoesOn cover dead)).Runs dead run ↔ body.Runs dead run)
  | .nil, _, _ => Iff.rfl
  | .cons first rest, run, uncovered => by
    rw [Statements.cut, Statements.Runs, Statements.Runs]
    refine or_congr (and_congr_left fun _ => first.uncovered_cut run uncovered) ⟨?_, ?_⟩
    · rintro ⟨calls, later, here, there, rfl⟩
      rw [covered_append, not_or] at uncovered
      have ran := (first.uncovered_cut _ uncovered.1).mp here
      rw [if_pos (show GoesOn cover dead first from ⟨_, ran, rfl, uncovered.1⟩)] at there
      exact ⟨calls, later, ran, (rest.uncovered_cut _ uncovered.2).mp there, rfl⟩
    · rintro ⟨calls, later, here, there, rfl⟩
      rw [covered_append, not_or] at uncovered
      rw [if_pos (show GoesOn cover dead first from ⟨_, here, rfl, uncovered.1⟩)]
      exact ⟨calls, later, (first.uncovered_cut _ uncovered.1).mpr here,
        (rest.uncovered_cut _ uncovered.2).mpr there, rfl⟩

end

variable (cover)

def Walks (runs followed : Run → Prop) (size : ℕ) (walk : Walk) (result : Option (Paths × Walk)) :
    Prop :=
  ∃ after left, result = some (after, left) ∧ walk.budget ≤ left.budget + size ∧
    Answer cover runs followed walk.returns after left.returns

mutual

private theorem statement_walks : ∀ (node : Statement) (paths : Paths) (walk : Walk) {depth : ℕ},
    node.Fits depth → (∀ item ∈ node.expressions, Meets cover item) → node.size ≤ walk.budget →
    paths.uncovered = true → Walks cover (node.Runs cover.deadReturns)
      ((node.cut (GoesOn cover cover.deadReturns)).Runs cover.deadReturns) node.size walk
      (statement cover node paths depth walk)
  | .blockStatement body, paths, walk, _, fits, meets, enough, live => by
    rw [statement, if_neg (entered fits enough)]
    rw [Statement.size] at enough ⊢
    obtain ⟨after, left, walked, spent, answer⟩ := statements_walks body paths
      ⟨walk.returns, walk.budget - 1⟩ fits.2 meets (Nat.le_sub_one_of_lt enough) live
    exact ⟨after, left, walked, by dsimp only at spent; omega, answer⟩
  | .ifStatement test consequent, paths, walk, _, fits, meets, enough, live => by
    rw [statement, if_neg (entered fits enough)]
    rw [Statement.size] at enough ⊢
    obtain ⟨here, there⟩ := forall_mem_cons.mp meets
    obtain ⟨tested, executes, avoids⟩ := free_aside here
    obtain ⟨yes, left, walked, spent, answer⟩ :=
      statement_walks consequent paths ⟨walk.returns, walk.budget - 1⟩ fits.2 there
        (Nat.le_sub_one_of_lt enough) live
    exact ⟨_, left, congrArg (Option.map _) walked, by dsimp only at spent; omega,
      (answer.union (answer_normal live simple_nil)).tested ⟨tested, executes, avoids _ nofun⟩⟩
  | .ifElseStatement test consequent alternate, paths, walk, _, fits, meets, enough, live => by
    rw [statement, if_neg (entered fits enough)]
    rw [Statement.size] at enough ⊢
    obtain ⟨here, there⟩ := forall_mem_cons.mp meets
    obtain ⟨tested, executes, avoids⟩ := free_aside here
    obtain ⟨left_meets, right_meets⟩ := forall_mem_append.mp there
    obtain ⟨yes, between, walked, spent, answer⟩ :=
      statement_walks consequent paths ⟨walk.returns, walk.budget - 1⟩ fits.2.1 left_meets
        (by dsimp only; omega) live
    dsimp only at spent
    obtain ⟨no, left, walked', spent', answer'⟩ :=
      statement_walks alternate paths between fits.2.2 right_meets (by omega) live
    refine ⟨yes.union no, left, ?_, by omega,
      (answer.union answer').tested ⟨tested, executes, avoids _ nofun⟩⟩
    dsimp only
    rw [walked, Option.bind_some, walked']
    rfl
  | .returnStatement span argument, paths, walk, _, fits, meets, enough, live => by
    rw [statement, if_neg (entered fits enough)]
    have cut : (Statement.returnStatement span argument).cut (GoesOn cover cover.deadReturns) =
        .returnStatement span argument := rfl
    rw [cut]
    dsimp only
    by_cases skipped : span ∈ cover.deadReturns
    · have runs : (Statement.returnStatement span argument).Runs cover.deadReturns =
          (· = ([], .normal)) := funext fun run => if_pos skipped
      rw [runs, if_pos skipped]
      exact ⟨_, _, rfl, Nat.le_add_of_sub_le le_rfl, answer_normal live simple_nil⟩
    · have runs : (Statement.returnStatement span argument).Runs cover.deadReturns =
          Evaluated argument.toList (returned argument) := funext fun run => if_neg skipped
      rw [runs, if_neg skipped]
      exact ⟨_, _, rfl, Nat.le_add_of_sub_le le_rfl, answer_returned live (simple_returned
        fun value member => meets _ (mem_map_of_mem member))⟩
  | .throwStatement argument, paths, walk, _, fits, meets, enough, live => by
    rw [statement, if_neg (entered fits enough)]
    exact ⟨_, _, rfl, Nat.le_add_of_sub_le le_rfl,
      answer_threw live (simple_thrown (meets _ mem_cons_self))⟩
  | .expressionStatement expression, paths, walk, _, fits, meets, enough, live => by
    rw [statement, if_neg (entered fits enough)]
    have simple : Simple cover (Evaluated [expression] .normal) .normal
        ([expression].any (candidate cover)) := simple_normal fun item member => by
      rw [mem_singleton.mp member]
      exact meets _ mem_cons_self
    rw [any_cons, any_nil, Bool.or_false] at simple
    exact ⟨_, _, rfl, Nat.le_add_of_sub_le le_rfl, answer_normal live simple⟩
  | .variableDeclaration inits, paths, walk, _, fits, meets, enough, live => by
    rw [statement, if_neg (entered fits enough)]
    have same : inits.any (·.any (candidate cover)) =
        (inits.filterMap id).any (candidate cover) := by
      rw [any_filterMap]
      rfl
    dsimp only
    rw [same]
    exact ⟨_, _, rfl, Nat.le_add_of_sub_le le_rfl, answer_normal live (simple_normal
      fun item member => meets _ (mem_map_of_mem member))⟩
  | .functionDeclaration, paths, walk, _, fits, _, enough, live
  | .emptyStatement, paths, walk, _, fits, _, enough, live => by
    rw [statement, if_neg (entered fits enough)]
    exact ⟨_, _, rfl, Nat.le_add_of_sub_le le_rfl, answer_normal live simple_nil⟩

private theorem statements_walks : ∀ (body : Statements) (paths : Paths) (walk : Walk) {depth : ℕ},
    body.Fits depth → (∀ item ∈ body.expressions, Meets cover item) → body.size ≤ walk.budget →
    paths.uncovered = true → Walks cover (body.Runs cover.deadReturns)
      ((body.cut (GoesOn cover cover.deadReturns)).Runs cover.deadReturns) body.size walk
      (statements cover body paths depth walk)
  | .nil, paths, walk, _, _, _, _, live =>
    ⟨paths, walk, rfl, Nat.le_refl _, answer_normal live simple_nil⟩
  | .cons first rest, paths, walk, depth, fits, meets, enough, live => by
    rw [Statements.size] at enough ⊢
    obtain ⟨here, there⟩ := forall_mem_append.mp meets
    have going : ¬ (paths = ⟨false, false⟩ ∨ paths = ⟨false, true⟩) := by
      rintro (rfl | rfl) <;> cases live
    rw [statements, if_neg going, Statements.cut]
    obtain ⟨middle, between, walked, spent, answer⟩ :=
      statement_walks first paths walk fits.1 here (by omega) live
    rw [walked, Option.bind_some]
    cases goes : middle.uncovered with
    | true =>
      obtain ⟨after, left, walked', spent', answer'⟩ :=
        statements_walks rest middle between fits.2 there (by omega) goes
      rw [if_pos (show GoesOn cover _ first from answer.falls.mp goes)]
      exact ⟨after, left, walked', by omega, answer.cons goes answer'⟩
    | false =>
      have stopped : statements cover rest middle depth between = some (middle, between) := by
        obtain ⟨_ | _, covered⟩ := middle
        · cases rest <;> cases covered <;> simp [statements]
        · cases goes
      have ended : ¬ GoesOn cover cover.deadReturns first := fun held =>
        Bool.eq_false_iff.mp goes (answer.falls.mpr held)
      rw [if_neg ended]
      exact ⟨middle, between, stopped, by omega, answer.stop goes⟩

end

variable {body : Statements} (fits : body.Fits 0) (small : body.size ≤ 4096)

include fits small

private theorem completionCover_iff (meets : ∀ item ∈ body.expressions, Meets cover item) :
    completionCover cover body = some true ↔
      Uncovered anyRun (Completes cover)
        ((body.cut (GoesOn cover cover.deadReturns)).Runs cover.deadReturns) ∧
      ∀ run, body.Runs cover.deadReturns run → Completes cover run.2 → Covered cover run := by
  obtain ⟨after, left, walked, -, answer⟩ :=
    statements_walks cover body ⟨true, false⟩ ⟨⟨false, false⟩, 4096⟩ fits meets small rfl
  have either : ∀ completion, Completes cover completion ↔
      completion = .normal ∨ Leaves cover completion := by
    intro completion
    by_cases normal : completion = .normal
    · simp [normal, Completes]
    · simp [normal, Leaves]
  have missed : (after.union left.returns).uncovered = true ↔
      Uncovered cover (Completes cover) (body.Runs cover.deadReturns) := by
    simp only [Paths.union, Bool.or_eq_true, answer.falls, answer.exits, Bool.false_eq_true, false_or,
      Uncovered, either, or_and_right, and_or_left, exists_or]
  have met : after.union left.returns ≠ ⟨false, false⟩ ↔ Uncovered anyRun (Completes cover)
      ((body.cut (GoesOn cover cover.deadReturns)).Runs cover.deadReturns) := by
    rw [ne_eq, union_eq_none, not_and_or, ← ne_eq, ← ne_eq, answer.reaches, answer.leaves]
    simp only [ne_eq, not_true_eq_false, false_or, uncovered_any, either, and_or_left, exists_or]
  have positive : completionCover cover body = some true ↔
      cover.candidates ≠ ∅ ∧ after.union left.returns = ⟨false, true⟩ := by
    unfold completionCover
    rw [walked]
    split <;> simp_all
  have all : (∀ run, body.Runs cover.deadReturns run → Completes cover run.2 → Covered cover run) ↔
      (after.union left.returns).uncovered ≠ true := by
    simp only [Ne, missed, Uncovered, not_exists, not_and, not_not]
  rw [positive, ← met, all]
  constructor
  · rintro ⟨-, both⟩
    simp [both]
  · rintro ⟨some, uncovered⟩
    refine ⟨fun none => ?_, ?_⟩
    · -- Without candidates no path is covered, so the cut keeps the one that completes.
      obtain ⟨run, ran, completes⟩ := uncovered_any.mp (met.mp some)
      have free : ¬ Covered cover run := by simp [Covered, none]
      exact uncovered (missed.mpr ⟨run, (body.uncovered_cut run free).mp ran, completes, free⟩)
    · generalize after.union left.returns = both at some uncovered
      obtain ⟨_ | _, _ | _⟩ := both
      · exact absurd rfl some
      · rfl
      · exact absurd rfl uncovered
      · exact absurd rfl uncovered

end

section

variable (candidates dead : Finset Span)

def Unmet (node : Statement) : Prop :=
  ∃ calls, node.Runs dead (calls, .normal) ∧ ∀ call ∈ calls, call ∉ candidates

def SomeCompletes (runs : Run → Prop) : Prop := ∃ run, runs run ∧ run.2 ≠ .threw

def AllMeet (runs : Run → Prop) : Prop :=
  ∀ run, runs run → run.2 ≠ .threw → ∃ call ∈ run.1, call ∈ candidates

variable {candidates dead} {body : Statements}

private theorem unmet_eq (throws : Bool) :
    GoesOn ⟨candidates, dead, false, throws⟩ dead = Unmet candidates dead := by
  funext node
  simp [GoesOn, Unmet, Uncovered, Covered]

private theorem runs_cut_of_returns (run : Run) :
    (body.cut (GoesOn ⟨candidates, dead, true, false⟩ dead)).Runs dead run ↔ body.Runs dead run := by
  have never : ¬ Covered ⟨∅, dead, true, false⟩ run := by simp [Covered]
  have same : GoesOn ⟨candidates, dead, true, false⟩ dead = GoesOn ⟨∅, dead, true, false⟩ dead := by
    funext node
    simp [GoesOn, Uncovered, Covered]
  rw [same]
  exact body.uncovered_cut run never

mutual

private theorem Statement.exists_run : ∀ node : Statement, ∃ run, node.Runs dead run
  | .blockStatement body => body.exists_run
  | .ifStatement test _ => by
    obtain ⟨tested, executes⟩ := exists_executes test
    exact ⟨_, tested, _, executes, .inr rfl, rfl⟩
  | .ifElseStatement test consequent _ => by
    obtain ⟨tested, executes⟩ := exists_executes test
    obtain ⟨run, ran⟩ := consequent.exists_run
    exact ⟨_, tested, run, executes, .inl ran, rfl⟩
  | .returnStatement span argument => by
    unfold Statement.Runs
    split
    · exact ⟨_, rfl⟩
    · exact some_evaluated _ _
  | .throwStatement _ | .expressionStatement _ | .variableDeclaration _ => some_evaluated _ _
  | .functionDeclaration | .classDeclaration | .emptyStatement | .other => ⟨_, rfl⟩

private theorem Statements.exists_run : ∀ body : Statements, ∃ run, body.Runs dead run
  | .nil => ⟨_, rfl⟩
  | .cons first rest => by
    obtain ⟨⟨calls, completion⟩, here⟩ := first.exists_run
    obtain ⟨later, there⟩ := rest.exists_run
    by_cases normal : completion = .normal
    · exact ⟨_, .inr ⟨calls, later, normal ▸ here, there, rfl⟩⟩
    · exact ⟨_, .inl ⟨here, normal⟩⟩

end

end

def callA : Expression := .call (0, 3) false (.identifier (0, 1)) .nil

def throwOrCall : Statements :=
  .cons (.ifStatement (.identifier (4, 8)) (.throwStatement (.other (9, 10) .nil)))
    (.cons (.expressionStatement callA) .nil)

def callThenThrow : Statements :=
  .cons (.expressionStatement callA) (.cons (.throwStatement (.identifier (4, 5))) .nil)

def returnOrThrow : Statements :=
  .cons (.ifStatement (.identifier (12, 13)) (.blockStatement (.cons (.expressionStatement callA)
    (.cons (.returnStatement (4, 11) none) .nil)))) (.cons (.throwStatement (.identifier (4, 5))) .nil)

private theorem executes_callA {calls : List Span} : Executes callA calls ↔ calls = [(0, 3)] := by
  simp [Executes, callA, Expression.Evaluates, Expressions.Evaluates]

private theorem executes_identifier {span : Span} {calls : List Span} :
    Executes (.identifier span) calls ↔ calls = [] := by
  simp [Executes, Expression.Evaluates]

end SolidChecker.Ast.CompletionCover
