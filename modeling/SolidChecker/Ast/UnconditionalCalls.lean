/- source: solid-facts/src/ast/unconditional_calls.rs -/

import Mathlib.Data.List.Nodup
import Mathlib.Data.List.Flatten

namespace SolidChecker.Ast.UnconditionalCalls

open List

/-- The kinds of nodes that the walk tells apart; every other one is `other`. An assignment is
`logical` by its operator. -/
inductive Kind where
  | functionBody
  | blockStatement
  | ifStatement
  | conditionalExpression
  | logicalExpression
  | assignmentExpression (logical : Bool)
  | callExpression (optional : Bool)
  | newExpression
  | staticMemberExpression (optional : Bool)
  | computedMemberExpression (optional : Bool)
  | variableDeclarator
  | expressionStatement
  | returnStatement
  | throwStatement
  | variableDeclaration
  | parenthesizedExpression
  | sequenceExpression
  | binaryExpression
  | unaryExpression
  | updateExpression
  | templateLiteral
  | arrayExpression
  | objectExpression
  | objectProperty
  | spreadElement
  | tsAsExpression
  | tsSatisfiesExpression
  | tsNonNullExpression
  | tsTypeAssertion
  | breakStatement
  | continueStatement
  | function
  | arrowFunctionExpression (expression : Bool)
  | classDefinition
  | other
deriving DecidableEq

structure Info where
  id : ℕ
  start : ℕ
  stop : ℕ
  kind : Kind
deriving DecidableEq

inductive Forest where
  | nil
  | cons (info : Info) (children rest : Forest)

abbrev Node := Info × Forest

namespace Forest

def nodes : Forest → List Node
  | nil => []
  | cons info children rest => (info, children) :: rest.nodes

def ids : Forest → List ℕ
  | nil => []
  | cons info children rest => info.id :: children.ids ++ rest.ids

end Forest

def Node.ids (node : Node) : List ℕ := node.1.id :: node.2.ids

def sameSpan (first second : Info) : Bool :=
  decide (first.start = second.start ∧ first.stop = second.stop)

section

variable (truthiness : ℕ → Option Bool) (throwsExit : Bool)

def decided (children : Forest) : Option Bool :=
  children.nodes[0]?.bind fun test => truthiness test.1.id

def deadArm (node : Node) (place : ℕ) : Bool :=
  decide (node.1.kind = .ifStatement) && match decided truthiness node.2 with
    | some true => decide (place = 2)
    | some false => decide (place = 1)
    | none => false

def isExit : Kind → Bool
  | .returnStatement | .breakStatement | .continueStatement => true
  | .throwStatement => throwsExit
  | _ => false

def isNested : Kind → Bool
  | .function | .arrowFunctionExpression _ | .classDefinition => true
  | _ => false

/-- Whether an exit is found among nodes from a place on, those that are dead apart. -/
def exitsFrom (dead : ℕ → Bool) (place : ℕ) : Forest → Bool
  | .nil => false
  | .cons info children rest =>
    !dead place && (isExit throwsExit info.kind ||
      !isNested info.kind && exitsFrom (deadArm truthiness (info, children)) 0 children) ||
    exitsFrom dead (place + 1) rest

def exits (node : Node) : Bool :=
  exitsFrom truthiness throwsExit (fun _ => false) 0 (.cons node.1 node.2 .nil)

def statementsBeforeExitFree (child : Info) : List Node → Bool
  | [] => false
  | statement :: later => sameSpan statement.1 child ||
      !exits truthiness throwsExit statement && statementsBeforeExitFree child later

def evaluatesChildOnce (parent : Node) (child : Info) : Bool :=
  let is (place : ℕ) := parent.2.nodes[place]?.any fun node => sameSpan node.1 child
  match parent.1.kind with
  | .functionBody | .blockStatement =>
    statementsBeforeExitFree truthiness throwsExit child parent.2.nodes
  | .ifStatement | .conditionalExpression => is 0 || match decided truthiness parent.2 with
      | some true => is 1
      | some false => is 2
      | none => false
  | .logicalExpression => is 0
  | .assignmentExpression logical => !logical || !is 1
  | .callExpression optional | .staticMemberExpression optional
  | .computedMemberExpression optional => !optional
  | .variableDeclarator => is 1
  | .breakStatement | .continueStatement | .function | .arrowFunctionExpression _
  | .classDefinition | .other => false
  | _ => true

def isCall : Kind → Bool
  | .callExpression optional => !optional
  | .newExpression => true
  | _ => false

/-- The calls that each step of the way up admits. The steps from a node are taken together here on
the way down: `admits` tells whether those from its parent are, and that to the parent. -/
def calls (admits : Info → Bool) : Forest → List Info
  | .nil => []
  | .cons info children rest =>
    (if isCall info.kind && admits info then [info] else []) ++
      calls (fun child => admits info &&
        evaluatesChildOnce truthiness throwsExit (info, children) child) children ++
      calls admits rest

end

def comparesSpans : Kind → Bool
  | .functionBody | .blockStatement | .ifStatement | .conditionalExpression
  | .logicalExpression | .assignmentExpression _ | .variableDeclarator => true
  | _ => false

def Apart : Forest → Prop
  | .nil => True
  | .cons info children rest =>
    (comparesSpans info.kind = true → children.nodes.Pairwise fun first second =>
      sameSpan first.1 second.1 = false) ∧ Apart children ∧ Apart rest

structure Function where
  owner : Info
  asynchronous : Bool
  generator : Bool
  params : Forest
  body : Node
  distinct : (params.ids ++ body.ids).Nodup
  apart : Apart params ∧ Apart (.cons body.1 body.2 .nil)

def unconditionalCalls (truthiness : ℕ → Option Bool) (function : Function) : List Info :=
  if function.asynchronous || function.generator then []
  else
    let admits (child : Info) := decide (child.kind = .functionBody) ||
      decide (function.owner.kind = .arrowFunctionExpression true)
    calls truthiness false admits function.params ++
      calls truthiness false admits (.cons function.body.1 function.body.2 .nil)

inductive Completion where
  | normal
  | returned
  | broke
  | continued
  | threw
  | skipped
deriving DecidableEq

def Plain (completion : Completion) : Prop :=
  completion = .normal ∨ completion = .threw ∨ completion = .skipped

/-- A node whose children may run in any order and number: a loop, a `switch`, a `try`, a labelled
statement, an optional chain and its optional links, a class. -/
def isLoose : Kind → Bool
  | .callExpression optional | .staticMemberExpression optional
  | .computedMemberExpression optional => optional
  | .classDefinition | .other => true
  | _ => false

section

variable (truthiness : ℕ → Option Bool)

def arms (node : Node) : List ℕ :=
  match decided truthiness node.2 with
  | some true => [1]
  | some false => [2]
  | none => [1, 2]

/-- The children that a node evaluates in order, and then the statements that it runs. A condition
goes as the oracle says where it knows. -/
def parts (node : Node) : List (List Node × List Node) :=
  let nodes := node.2.nodes
  match node.1.kind with
  | .functionBody | .blockStatement => [([], nodes)]
  | .ifStatement => (arms truthiness node).map fun arm => (nodes[0]?.toList, nodes[arm]?.toList)
  | .conditionalExpression =>
    (arms truthiness node).map fun arm => (nodes[0]?.toList ++ nodes[arm]?.toList, [])
  | .logicalExpression => [(nodes.take 1, []), (nodes, [])]
  | .assignmentExpression true => [(nodes.eraseIdx 1, []), (nodes, [])]
  | .function | .arrowFunctionExpression _ | .breakStatement | .continueStatement => [([], [])]
  | _ => [(nodes, [])]

def finishNormal (info : Info) : List (List ℕ × Completion) :=
  match info.kind with
  | .callExpression _ | .newExpression => [([info.id], .normal), ([info.id], .threw)]
  | .returnStatement => [([], .returned)]
  | .throwStatement => [([], .threw)]
  | .breakStatement => [([], .broke)]
  | .continueStatement => [([], .continued)]
  | _ => [([], .normal), ([], .threw)]

def finish (info : Info) (completion : Completion) : List (List ℕ × Completion) :=
  if completion = .normal then finishNormal info else [([], completion)]

inductive Task where
  | node (node : Node)
  | seq (nodes : List Node)
  | any (nodes : List Node)

/-- The runs of a node, of nodes in order, and of nodes in any order: the calls performed in them and
how they complete. No expression returns, breaks or continues. -/
inductive Run : Task → List ℕ → Completion → Prop
  | done : Run (.seq []) [] .normal
  | stop {node later trace completion} : Run (.node node) trace completion →
      completion ≠ .normal → Run (.seq (node :: later)) trace completion
  | next {node later trace more completion} : Run (.node node) trace .normal →
      Run (.seq later) more completion → Run (.seq (node :: later)) (trace ++ more) completion
  | anyDone {nodes completion} : Plain completion → Run (.any nodes) [] completion
  | anyStop {nodes node trace completion} : node ∈ nodes → Run (.node node) trace completion →
      Run (.any nodes) trace completion
  | anyNext {nodes node trace ended more completion} : node ∈ nodes →
      Run (.node node) trace ended → Run (.any nodes) more completion →
      Run (.any nodes) (trace ++ more) completion
  | abrupt {node part trace completion} : isLoose node.1.kind = false →
      part ∈ parts truthiness node → Run (.seq part.1) trace completion → Plain completion →
      completion ≠ .normal → Run (.node node) trace completion
  | strict {node part trace more completion last} : isLoose node.1.kind = false →
      part ∈ parts truthiness node → Run (.seq part.1) trace .normal →
      Run (.seq part.2) more completion → last ∈ finish node.1 completion →
      Run (.node node) (trace ++ more ++ last.1) last.2
  | loose {node trace completion own} : isLoose node.1.kind = true →
      Run (.any node.2.nodes) trace completion →
      (node.1.kind = .classDefinition → completion = .normal ∨ completion = .threw) →
      own ∈ [[], [node.1.id]] → Run (.node node) (trace ++ own) completion

def Task.ids : Task → List ℕ
  | .node entry => entry.ids
  | .seq nodes | .any nodes => nodes.flatMap Node.ids

variable {truthiness}

private theorem ids_flatMap (forest : Forest) : forest.nodes.flatMap Node.ids = forest.ids := by
  induction forest with
  | nil => rfl
  | cons info children rest _ ih =>
    rw [Forest.nodes, flatMap_cons, ih]
    rfl

variable {forest : Forest}

private theorem mem_ids {node : Node} (member : node ∈ forest.nodes) : node.ids ⊆ forest.ids := by
  intro id inside
  rw [← ids_flatMap]
  exact mem_flatMap.mpr ⟨node, member, inside⟩

variable {node : Node} {part : List Node × List Node} {completion : Completion} {trace : List ℕ}

private theorem arms_spec {place : ℕ} (member : place ∈ arms truthiness node) :
    place ≠ 0 ∧ deadArm truthiness node place = false := by
  unfold arms at member
  unfold deadArm
  split at member
  · obtain rfl := mem_singleton.mp member
    simp
  · obtain rfl := mem_singleton.mp member
    simp
  · have is : place = 1 ∨ place = 2 := by simpa using member
    exact ⟨by omega, Bool.and_false _⟩

private theorem parts_sublist (member : part ∈ parts truthiness node) :
    (part.1 ++ part.2).Sublist node.2.nodes := by
  have pair (place : ℕ) (among : place ∈ arms truthiness node) :
      (node.2.nodes[0]?.toList ++ node.2.nodes[place]?.toList).Sublist node.2.nodes := by
    obtain ⟨place, rfl⟩ := Nat.exists_eq_succ_of_ne_zero (arms_spec among).1
    cases node.2.nodes with
    | nil => simp
    | cons first later =>
      refine .cons_cons first ?_
      cases found : (first :: later)[place + 1]? with
      | none => exact nil_sublist _
      | some node => exact singleton_sublist.mpr (mem_of_getElem? found)
  unfold parts at member
  dsimp only at member
  split at member
  case h_3 | h_4 =>
    obtain ⟨place, among, rfl⟩ := mem_map.mp member
    simpa using pair place among
  case h_5 =>
    have is : part = (node.2.nodes.take 1, []) ∨ part = (node.2.nodes, []) := by simpa using member
    rcases is with rfl | rfl
    · simpa using take_sublist 1 node.2.nodes
    · simp
  case h_6 =>
    have is : part = (node.2.nodes.eraseIdx 1, []) ∨ part = (node.2.nodes, []) := by
      simpa using member
    rcases is with rfl | rfl
    · simpa using eraseIdx_sublist node.2.nodes 1
    · simp
  all_goals
    obtain rfl := mem_singleton.mp member
    simp

private theorem child_ids (member : part ∈ parts truthiness node) :
    ∀ id ∈ part.1.flatMap Node.ids ++ part.2.flatMap Node.ids, id ∈ node.ids := by
  intro id held
  rw [← flatMap_append] at held
  rw [Node.ids, ← ids_flatMap]
  exact mem_cons_of_mem _ (((parts_sublist member).flatMap Node.ids).subset held)

private theorem finish_own {info : Info} {last : List ℕ × Completion}
    (ends : last ∈ finish info completion) : last.1 ∈ [[], [info.id]] := by
  unfold finish finishNormal at ends
  split_ifs at ends
  · split at ends
    case h_1 | h_2 | h_7 =>
      rcases mem_pair.mp ends with rfl | rfl <;> simp
    all_goals
      obtain rfl := mem_singleton.mp ends
      simp
  · obtain rfl := mem_singleton.mp ends
    simp

private theorem own_ids {own : List ℕ} (member : own ∈ [[], [node.1.id]]) : ∀ id ∈ own, id ∈ node.ids := by
  intro id held
  rcases mem_pair.mp member with rfl | rfl
  · cases held
  · exact mem_singleton.mp held ▸ mem_cons_self

variable {task : Task}

private theorem run_ids (run : Run truthiness task trace completion) : ∀ id ∈ trace, id ∈ task.ids := by
  induction run with
  | done => simp
  | stop _ _ ih =>
    intro id member
    exact mem_append_left _ (ih id member)
  | next _ _ first second =>
    intro id member
    exact (mem_append.mp member).elim (fun member => mem_append_left _ (first id member))
      fun member => mem_append_right _ (second id member)
  | anyDone _ => simp
  | anyStop among _ ih =>
    intro id member
    exact mem_flatMap.mpr ⟨_, among, ih id member⟩
  | anyNext among _ _ first second =>
    intro id member
    rcases mem_append.mp member with member | member
    · exact mem_flatMap.mpr ⟨_, among, first id member⟩
    · exact second id member
  | abrupt _ among _ _ _ ih =>
    intro id member
    exact child_ids among id (mem_append_left _ (ih id member))
  | @strict node part _ _ completion last _ among _ _ ends first second =>
    intro id member
    simp only [mem_append] at member
    rcases member with (member | member) | member
    · exact child_ids among id (mem_append_left _ (first id member))
    · exact child_ids among id (mem_append_right _ (second id member))
    · exact own_ids (finish_own ends) id member
  | loose _ _ _ own ih =>
    intro id member
    rcases mem_append.mp member with member | member
    · exact mem_cons_of_mem _ (ids_flatMap _ ▸ ih id member)
    · exact own_ids own id member

variable {throwsExit : Bool}

private theorem exits_eq (node : Node) : exits truthiness throwsExit node =
    (isExit throwsExit node.1.kind || !isNested node.1.kind &&
      exitsFrom truthiness throwsExit (deadArm truthiness node) 0 node.2) := by
  simp [exits, exitsFrom]

private theorem exitsFrom_false {dead : ℕ → Bool} {first : ℕ}
    (none : exitsFrom truthiness throwsExit dead first forest = false) {place : ℕ}
    (found : forest.nodes[place]? = some node) (live : dead (first + place) = false) :
    exits truthiness throwsExit node = false := by
  induction forest generalizing first place with
  | nil => simp [Forest.nodes] at found
  | cons info children rest _ ih =>
    rw [exitsFrom, Bool.or_eq_false_iff] at none
    cases place with
    | zero =>
      cases found
      rw [Nat.add_zero] at live
      rw [exits_eq]
      simpa [live] using none.1
    | succ place =>
      refine ih none.2 found ?_
      rwa [Nat.add_right_comm]

private theorem parts_live {node child : Node} (member : part ∈ parts truthiness node)
    (runs : child ∈ part.2) :
    isNested node.1.kind = false ∧ ∃ place, node.2.nodes[place]? = some child ∧
      deadArm truthiness node place = false := by
  unfold parts at member
  dsimp only at member
  split at member
  case h_1 kind | h_2 kind =>
    obtain rfl := mem_singleton.mp member
    obtain ⟨place, found⟩ := getElem?_of_mem runs
    exact ⟨by rw [kind]; rfl, place, found, by simp [deadArm, kind]⟩
  case h_3 kind =>
    obtain ⟨place, among, rfl⟩ := mem_map.mp member
    exact ⟨by rw [kind]; rfl, place, Option.mem_toList.mp runs, (arms_spec among).2⟩
  case h_4 =>
    obtain ⟨place, among, rfl⟩ := mem_map.mp member
    cases runs
  case h_5 | h_6 =>
    rcases mem_pair.mp member with rfl | rfl <;> cases runs
  all_goals
    obtain rfl := mem_singleton.mp member
    cases runs

variable (truthiness throwsExit) in
def Quiet : Task → Prop
  | .node entry => exits truthiness throwsExit entry = false
  | .seq nodes | .any nodes => ∀ entry ∈ nodes, exits truthiness throwsExit entry = false

private theorem run_quiet (run : Run truthiness task trace completion)
    (quiet : Quiet truthiness throwsExit task) : Plain completion := by
  induction run with
  | done => exact .inl rfl
  | stop _ _ ih => exact ih (quiet _ mem_cons_self)
  | next _ _ _ ih => exact ih fun entry member => quiet entry (mem_cons_of_mem _ member)
  | anyDone ends => exact ends
  | anyStop among _ ih => exact ih (quiet _ among)
  | anyNext _ _ _ _ ih => exact ih quiet
  | abrupt _ _ _ plain _ _ => exact plain
  | @strict node part _ _ completion last _ among _ _ ends _ ih =>
    rw [Quiet, exits_eq, Bool.or_eq_false_iff] at quiet
    have ended := ih fun entry member => by
      obtain ⟨inside, place, found, live⟩ := parts_live among member
      rw [inside] at quiet
      exact exitsFrom_false quiet.2 found (by simpa using live)
    unfold finish finishNormal at ends
    split_ifs at ends with normal
    · split at ends
      case h_1 | h_2 | h_7 => rcases mem_pair.mp ends with rfl | rfl <;> simp [Plain]
      case h_4 => exact .inr (.inl (congrArg Prod.snd (mem_singleton.mp ends)))
      case h_3 kind | h_5 kind | h_6 kind =>
        rw [kind] at quiet
        exact absurd quiet.1 (by simp [isExit])
    · obtain rfl := mem_singleton.mp ends
      exact ended
  | @loose node _ completion _ is _ ends _ ih =>
    rw [Quiet, exits_eq, Bool.or_eq_false_iff] at quiet
    have live (place : ℕ) : deadArm truthiness node place = false := by
      unfold deadArm
      cases kind : node.1.kind <;> first | rfl | (rw [kind] at is; cases is)
    by_cases nested : node.1.kind = .classDefinition
    · exact (ends nested).imp_right .inl
    · have outside : isNested node.1.kind = false := by
        cases kind : node.1.kind <;>
          first | rfl | exact absurd kind nested | (rw [kind] at is; cases is)
      rw [outside] at quiet
      refine ih fun entry member => ?_
      obtain ⟨place, found⟩ := getElem?_of_mem member
      exact exitsFrom_false quiet.2 found (live _)

end

def Settled (completion : Completion) : Prop := completion = .normal ∨ completion = .returned

private theorem Plain.normal {completion : Completion} (plain : Plain completion)
    (settled : Settled completion) : completion = .normal := by
  rcases settled with normal | rfl
  · exact normal
  · rcases plain with ends | ends | ends <;> cases ends

section

variable {truthiness : ℕ → Option Bool}

variable (truthiness) in
def Holds (node : Node) (trace : List ℕ) : Prop :=
  ∃ before inner after completion, trace = before ++ inner ++ after ∧
    Run truthiness (.node node) inner completion ∧ Settled completion ∧
      ∀ id ∈ node.ids, id ∉ before ∧ id ∉ after

variable {node child : Node} {nodes : List Node} {trace : List ℕ} {completion : Completion}

private theorem Holds.within (holds : Holds truthiness node trace)
    {before after : List ℕ} (apart : ∀ id ∈ node.ids, id ∉ before ∧ id ∉ after) :
    Holds truthiness node (before ++ trace ++ after) := by
  obtain ⟨first, inner, last, completion, rfl, run, settled, others⟩ := holds
  refine ⟨before ++ first, inner, last ++ after, completion, by simp, run, settled,
    fun id member => ?_⟩
  simp only [mem_append, not_or]
  exact ⟨⟨(apart id member).1, (others id member).1⟩, (others id member).2, (apart id member).2⟩

private theorem seq_holds {earlier later : List Node}
    (run : Run truthiness (.seq (earlier ++ node :: later)) trace completion)
    (settled : Settled completion) (distinct : ((earlier ++ node :: later).flatMap Node.ids).Nodup)
    (passes : completion = .normal ∨ ∀ entry ∈ earlier, ∀ trace,
      ¬ Run truthiness (.node entry) trace completion) : Holds truthiness node trace := by
  induction earlier generalizing trace with
  | nil =>
    rw [nil_append, flatMap_cons, nodup_append] at distinct
    cases run with
    | stop run _ => exact ⟨[], trace, [], completion, by simp, run, settled, by simp⟩
    | @next _ _ first more _ run rest =>
      refine ⟨[], first, more, .normal, by simp, run, .inl rfl, fun id member => ?_⟩
      exact ⟨not_mem_nil, fun held =>
        distinct.2.2 id member id (run_ids rest id held) rfl⟩
  | cons head earlier ih =>
    rw [cons_append, flatMap_cons, nodup_append] at distinct
    cases run with
    | stop run stops =>
      rcases passes with normal | passes
      · exact absurd normal stops
      · exact absurd run (passes head mem_cons_self trace)
    | @next _ _ first more _ run rest =>
      have inner := ih rest distinct.2.1
        (passes.imp_right fun passes entry member => passes entry (mem_cons_of_mem _ member))
      have apart : ∀ id ∈ node.ids, id ∉ first ∧ id ∉ [] := by
        intro id member
        refine ⟨fun held => ?_, not_mem_nil⟩
        exact distinct.2.2 id (run_ids run id held) id (mem_flatMap.mpr ⟨node, by simp, member⟩) rfl
      simpa using inner.within apart

def SpansApart (nodes : List Node) : Prop :=
  nodes.Pairwise fun first second => sameSpan first.1 second.1 = false

private theorem SpansApart.eq (apart : SpansApart nodes) {first second : Node}
    (one : first ∈ nodes) (other : second ∈ nodes) (same : sameSpan first.1 second.1) :
    first = second := by
  induction nodes with
  | nil => cases one
  | cons head later ih =>
    obtain ⟨here, rest⟩ := pairwise_cons.mp apart
    rcases mem_cons.mp one with rfl | behind <;>
      rcases mem_cons.mp other with rfl | after
    · rfl
    · exact absurd same (Bool.eq_false_iff.mp (here second after))
    · have turned : sameSpan second.1 first.1 := by
        simpa only [sameSpan, eq_comm] using same
      exact absurd turned (Bool.eq_false_iff.mp (here first behind))
    · exact ih rest behind after

variable {throwsExit : Bool}

private theorem before_split (member : child ∈ nodes) (apart : SpansApart nodes)
    (free : statementsBeforeExitFree truthiness throwsExit child.1 nodes) :
    ∃ earlier later, nodes = earlier ++ child :: later ∧
      ∀ entry ∈ earlier, exits truthiness throwsExit entry = false := by
  induction nodes with
  | nil => cases member
  | cons head later ih =>
    rcases mem_cons.mp member with rfl | behind
    · exact ⟨[], later, rfl, by simp⟩
    · have differ : sameSpan head.1 child.1 = false := (pairwise_cons.mp apart).1 child behind
      rw [statementsBeforeExitFree, differ, Bool.false_or, Bool.and_eq_true,
        Bool.not_eq_true'] at free
      obtain ⟨earlier, rest, split, quiet⟩ := ih behind (pairwise_cons.mp apart).2 free.2
      exact ⟨head :: earlier, rest, by rw [split]; rfl, by simpa [free.1] using quiet⟩

section

variable {parent : Node} (member : child ∈ parent.2.nodes)
  (once : evaluatesChildOnce truthiness throwsExit parent child.1)
  (apart : comparesSpans parent.1.kind → SpansApart parent.2.nodes)

include member once apart

private theorem once_part {part : List Node × List Node} (among : part ∈ parts truthiness parent) : child ∈ part.1 ∨ ∃ earlier later,
      part.2 = earlier ++ child :: later ∧
        ∀ entry ∈ earlier, exits truthiness throwsExit entry = false := by
  have at_place (compared : comparesSpans parent.1.kind) {place : ℕ}
      (is : (parent.2.nodes[place]?.any fun node => sameSpan node.1 child.1)) :
      parent.2.nodes[place]? = some child := by
    cases found : parent.2.nodes[place]? with
    | none =>
      rw [found] at is
      cases is
    | some node =>
      rw [found] at is
      exact congrArg some ((apart compared).eq (mem_of_getElem? found) member is)
  unfold parts at among
  unfold evaluatesChildOnce at once
  dsimp only at among once
  split at among
  case h_1 kind | h_2 kind =>
    rw [kind] at once
    obtain rfl := mem_singleton.mp among
    exact .inr (before_split member (apart (by rw [kind]; rfl)) once)
  case h_3 kind | h_4 kind =>
    rw [kind] at once
    have compared : comparesSpans parent.1.kind = true := by rw [kind]; rfl
    obtain ⟨place, arm, rfl⟩ := mem_map.mp among
    rcases Bool.or_eq_true_iff.mp once with test | taken
    · simp [at_place compared test]
    · unfold arms at arm
      split at taken
      case h_1 known | h_2 known =>
        rw [known] at arm
        obtain rfl := mem_singleton.mp arm
        have last := at_place compared taken
        first
          | exact .inr ⟨[], [], by rw [last]; rfl, by simp⟩
          | exact .inl (mem_append_right _ (by simp [last]))
      case h_3 => cases taken
  case h_5 kind =>
    rw [kind] at once
    have first := at_place (by rw [kind]; rfl) once
    rcases mem_pair.mp among with rfl | rfl
    · refine .inl (mem_of_getElem? (i := 0) ?_)
      rw [getElem?_take_of_lt Nat.one_pos, first]
    · exact .inl member
  case h_6 kind =>
    rw [kind] at once
    rcases mem_pair.mp among with rfl | rfl
    · -- Only the right side may be left out, and the child is another node.
      obtain ⟨place, found⟩ := getElem?_of_mem member
      refine .inl (mem_eraseIdx_iff_getElem?.mpr ⟨place, ?_, found⟩)
      rintro rfl
      simp [found, sameSpan] at once
    · exact .inl member
  case h_7 kind | h_8 kind | h_9 kind | h_10 kind =>
    rw [kind] at once
    exact absurd once Bool.false_ne_true
  case h_11 =>
    obtain rfl := mem_singleton.mp among
    exact .inl member

private theorem child_holds (distinct : parent.ids.Nodup)
    (run : Run truthiness (.node parent) trace completion) (settled : Settled completion) :
    Holds truthiness child trace := by
  cases run with
  | abrupt _ _ _ plain stops => exact absurd (plain.normal settled) stops
  | loose is =>
    unfold evaluatesChildOnce at once
    cases kind : parent.1.kind <;> rw [kind] at is once <;> simp_all [isLoose]
  | @strict _ part first more ended last _ among evaluated ran ends =>
    obtain ⟨fresh, parted⟩ := nodup_cons.mp distinct
    rw [← ids_flatMap] at parted
    replace parted := parted.sublist ((parts_sublist among).flatMap Node.ids)
    rw [flatMap_append, nodup_append] at parted
    have own : ∀ id ∈ child.ids, id ∉ last.1 := by
      intro id inside performed
      rcases mem_pair.mp (finish_own ends) with none | one
      · rw [none] at performed
        cases performed
      · rw [one] at performed
        exact fresh (mem_singleton.mp performed ▸ mem_ids member inside)
    have ended_settled : Settled ended := by
      unfold finish at ends
      split_ifs at ends with normal
      · exact .inl normal
      · have same : last.2 = ended := congrArg Prod.snd (mem_singleton.mp ends)
        exact same ▸ settled
    rcases once_part member once apart among with evaluates | ⟨earlier, later, split, quiet⟩
    · obtain ⟨earlier, later, split⟩ := append_of_mem evaluates
      rw [split] at evaluated
      have inner := seq_holds evaluated (.inl rfl) (split ▸ parted.1) (.inl rfl)
      have outside : ∀ id ∈ child.ids, id ∉ [] ∧ id ∉ more ++ last.1 := by
        intro id inside
        refine ⟨not_mem_nil, fun later => ?_⟩
        rcases mem_append.mp later with ran' | performed
        · exact parted.2.2 id (mem_flatMap.mpr ⟨child, evaluates, inside⟩) id
            (run_ids ran id ran') rfl
        · exact own id inside performed
      simpa using inner.within outside
    · have runs : child ∈ part.2 := by simp [split]
      have passes : ended = .normal ∨ ∀ entry ∈ earlier, ∀ trace,
          ¬ Run truthiness (.node entry) trace ended := by
        by_cases normal : ended = .normal
        · exact .inl normal
        · refine .inr fun entry before trace run => ?_
          exact normal ((run_quiet run (quiet entry before)).normal ended_settled)
      rw [split] at ran
      have inner := seq_holds ran ended_settled (split ▸ parted.2.1) passes
      refine inner.within fun id inside => ⟨fun before => ?_, own id inside⟩
      exact parted.2.2 id (run_ids evaluated id before) id
        (mem_flatMap.mpr ⟨child, runs, inside⟩) rfl

end

private theorem calls_hold {forest : Forest} {admits : Info → Bool}
    (distinct : forest.ids.Nodup) (apart : Apart forest)
    (holds : ∀ node ∈ forest.nodes, admits node.1 → Holds truthiness node trace)
    {call : Info} (reported : call ∈ calls truthiness throwsExit admits forest) :
    ∃ children : Forest, isCall call.kind ∧ (call.id :: children.ids).Nodup ∧
      Holds truthiness (call, children) trace := by
  induction forest generalizing admits with
  | nil => cases reported
  | cons info children rest inner later =>
    obtain ⟨compared, below, beside⟩ := apart
    obtain ⟨own, behind, -⟩ := nodup_append.mp distinct
    rw [calls, mem_append, mem_append] at reported
    rcases reported with (here | deep) | after
    · split_ifs at here with admitted
      · obtain rfl := mem_singleton.mp here
        rw [Bool.and_eq_true] at admitted
        exact ⟨children, admitted.1, own, holds _ mem_cons_self admitted.2⟩
      · cases here
    · refine inner (nodup_cons.mp own).2 below (fun node member admitted => ?_) deep
      rw [Bool.and_eq_true] at admitted
      obtain ⟨before, within, last, completion, rfl, run, settled, outside⟩ :=
        holds (info, children) mem_cons_self admitted.1
      refine (child_holds member admitted.2 compared own run settled).within fun id inside => ?_
      exact outside id (mem_cons_of_mem _ (mem_ids member inside))
    · exact later behind beside (fun node member => holds node (mem_cons_of_mem _ member)) after

private theorem isCall_kind {kind : Kind} (is : isCall kind) :
    kind = .callExpression false ∨ kind = .newExpression := by
  cases kind <;> simp_all [isCall]

private theorem call_once {call : Node} (is : isCall call.1.kind)
    (distinct : call.ids.Nodup) (holds : Holds truthiness call trace) :
    trace.count call.1.id = 1 := by
  obtain ⟨before, inner, after, completion, rfl, run, settled, outside⟩ := holds
  have apart := outside call.1.id mem_cons_self
  have one : inner.count call.1.id = 1 := by
    cases run with
    | abrupt _ _ _ plain stops => exact absurd (plain.normal settled) stops
    | loose loose => rcases isCall_kind is with kind | kind <;> simp [kind, isLoose] at loose
    | @strict _ part first more ended last _ among evaluated ran ends =>
      have whole : part = (call.2.nodes, []) := by
        rcases isCall_kind is with kind | kind <;> simpa [parts, kind] using among
      rw [whole] at evaluated ran
      cases ran
      have performs : last.1 = [call.1.id] := by
        rcases isCall_kind is with kind | kind <;>
          simp only [finish, finishNormal, kind, if_true, mem_pair] at ends <;>
          rcases ends with rfl | rfl <;> rfl
      have later : call.1.id ∉ first := by
        intro held
        have inside := run_ids evaluated _ held
        rw [Task.ids, ids_flatMap] at inside
        exact (nodup_cons.mp distinct).1 inside
      rw [performs, append_nil, count_append, count_eq_zero_of_not_mem later, count_singleton_self]
  rw [count_append, count_append, one, count_eq_zero_of_not_mem apart.1,
    count_eq_zero_of_not_mem apart.2]

/-- A call that is reported is evaluated once in each run of the function that completes. -/
theorem reported_call_runs_once (function : Function) {call : Info}
    (reported : call ∈ unconditionalCalls truthiness function) {first second : List ℕ}
    {completion : Completion}
    (binds : Run truthiness (.seq function.params.nodes) first .normal)
    (runs : Run truthiness (.node function.body) second completion) (settled : Settled completion) :
    (first ++ second).count call.id = 1 := by
  obtain ⟨params, body, disjoint⟩ := nodup_append.mp function.distinct
  have held : ∃ children : Forest, isCall call.kind ∧ (call.id :: children.ids).Nodup ∧
      Holds truthiness (call, children) (first ++ second) := by
    unfold unconditionalCalls at reported
    split_ifs at reported
    · cases reported
    · rcases mem_append.mp reported with among | among
      · refine calls_hold params function.apart.1 (fun node member _ => ?_) among
        obtain ⟨earlier, later, split⟩ := append_of_mem member
        have inner : Holds truthiness node first := by
          rw [← ids_flatMap] at params
          exact seq_holds (split ▸ binds) (.inl rfl) (split ▸ params) (.inl rfl)
        have outside : ∀ id ∈ node.ids, id ∉ [] ∧ id ∉ second := by
          intro id inside
          refine ⟨not_mem_nil, fun ran => ?_⟩
          exact disjoint id (mem_ids member inside) id (run_ids runs id ran) rfl
        simpa using inner.within outside
      · refine calls_hold (by simpa [Forest.ids, Node.ids] using body) function.apart.2
          (fun node member _ => ?_) among
        obtain rfl : node = function.body := mem_singleton.mp member
        refine ⟨first, second, [], completion, by simp, runs, settled, fun id inside => ?_⟩
        refine ⟨fun bound => ?_, not_mem_nil⟩
        have among := run_ids binds id bound
        rw [Task.ids, ids_flatMap] at among
        exact disjoint id among id inside rfl
  obtain ⟨children, is, distinct, holds⟩ := held
  exact @call_once truthiness _ (call, children) is distinct holds

def callAt (id start : ℕ) : Info := ⟨id, start, start + 3, .callExpression false⟩

def statementOf (id : ℕ) (call : Info) : Node :=
  (⟨id, call.start, call.stop + 1, .expressionStatement⟩, .cons call .nil .nil)

def guarded : Node :=
  (⟨4, 16, 30, .ifStatement⟩, .cons (callAt 5 20) .nil
    (.cons (statementOf 6 (callAt 7 25)).1 (statementOf 6 (callAt 7 25)).2 .nil))

def guardedFunction : Function where
  owner := ⟨0, 0, 32, .function⟩
  asynchronous := false
  generator := false
  params := .nil
  body := (⟨1, 10, 32, .functionBody⟩, .cons (statementOf 2 (callAt 3 12)).1
    (statementOf 2 (callAt 3 12)).2 (.cons guarded.1 guarded.2 .nil))
  distinct := by decide
  apart := by simp [Apart, Forest.nodes, statementOf, guarded, callAt, sameSpan]

private theorem run_callAt (id start : ℕ) : Run (fun _ => none) (.node (callAt id start, .nil)) [id] .normal :=
  @Run.strict _ (callAt id start, .nil) ([], []) [] [] .normal ([id], .normal) rfl mem_cons_self
    .done .done mem_cons_self

private theorem run_statementOf (id place start : ℕ) :
    Run (fun _ => none) (.node (statementOf id (callAt place start))) [place] .normal :=
  @Run.strict _ (statementOf id (callAt place start)) ([(callAt place start, .nil)], []) [place] []
    .normal ([], .normal) rfl mem_cons_self (.next (run_callAt place start) .done) .done mem_cons_self

private theorem guardedFunction_runs :
    Run (fun _ => none) (.node guardedFunction.body) [3, 5, 7] .normal := by
  have branch : Run (fun _ => none) (.node guarded) [5, 7] .normal :=
    @Run.strict _ guarded ([(callAt 5 20, .nil)], [statementOf 6 (callAt 7 25)]) [5] [7] .normal
      ([], .normal) rfl mem_cons_self (.next (run_callAt 5 20) .done)
      (.next (run_statementOf 6 7 25) .done) mem_cons_self
  exact @Run.strict _ guardedFunction.body ([], [statementOf 2 (callAt 3 12), guarded]) [] [3, 5, 7]
    .normal ([], .normal) rfl mem_cons_self .done
    (.next (run_statementOf 2 3 12) (.next branch .done)) mem_cons_self

/-- Of the three calls, the one of the condition is reported and the guarded one is not. -/
theorem reported_call_runs_once_guarded :
    callAt 7 25 ∉ unconditionalCalls (fun _ => none) guardedFunction ∧
      ([] ++ [3, 5, 7]).count (callAt 5 20).id = 1 :=
  ⟨by decide, reported_call_runs_once guardedFunction (by decide) .done guardedFunction_runs (.inl rfl)⟩

end

end SolidChecker.Ast.UnconditionalCalls
