import Std.Data.HashMap
import ConstraintExpr.Eval.Apply
import ConstraintExpr.Walk.Reduction

/-!
# Evaluation

A tree is evaluated by a stack machine: every node takes the operands of its
children off the stack and puts its own there. An operand is a value, a range,
or the list of the values of a set. All operands of a node are evaluated,
whatever its operator, and the first failure in the order of the walk is the
error.

* `Operand.contains` decides membership;
* `Eval.pop`, `Eval.popValues` and `Eval.push` are what callbacks do to the stack.
  What they have taken stays taken when they fail later on;
* `Eval.visitor` has the callback for each kind of node;
* `Eval.evaluateWithin` evaluates a tree and leaves the stack of the machine,
  `evaluate` and `satisfies` are the whole evaluation of a tree.
-/

namespace ConstraintExpr

/-- The values of the variables that have one. -/
abbrev Assignment := String → Option Int

/-- The assignment that a list of bindings makes; a later binding of a variable
replaces an earlier one. -/
def Assignment.ofBindings (bindings : List (String × Int)) : Assignment :=
  let values : Std.HashMap String Int := .ofList bindings
  fun id => values[id]?

/-- An entry of the stack of the machine; of a set, the values of its elements
in order. -/
inductive Operand where
  | value (n : Int)
  | range (lo hi : Int)
  | set (elements : List Int)
  deriving DecidableEq, Repr, Inhabited

namespace Operand

/-- The value of an operand; a range or a set has none. -/
def toValue : Operand → Except EvalError Int
  | .value n => .ok n
  | .range _ _ => .error (.unexpectedCollection .range)
  | .set _ => .error (.unexpectedCollection .set)

/-- Whether an operand contains a value; a value contains itself. -/
def contains (operand : Operand) (n : Int) : Bool :=
  match operand with
  | .value m => m == n
  | .range lo hi => Integer.within lo hi n
  | .set elements => elements.contains n

/-- The values of a list of operands, or the first failure from the left. -/
def toValues : List Operand → Except EvalError (List Int) :=
  List.mapM toValue

end Operand

namespace Eval

/-! ### The stack of the machine -/

/-- Work on the stack of the machine, the newest operand on top. It may fail, and
leaves its changes of the stack also then. -/
abbrev Machine := ExceptT EvalError (StateM (List Operand))

/-- Takes operands off the stack, as many as asked for or all there are. The newest
one comes last. -/
def pop (count : Nat) : Machine (List Operand) :=
  modifyGet fun stack => ((stack.take count).reverse, stack.drop count)

/-- Takes operands off the stack, all of which have to be values. -/
def popValues (count : Nat) : Machine (List Int) := do
  Operand.toValues (← pop count)

def push (operand : Operand) : Machine Unit :=
  modify (operand :: ·)

/-- Does the work on a stack. -/
def Machine.perform {α : Type} (work : Machine α) (stack : List Operand) :
    Except EvalError α × List Operand :=
  work.run.run stack

/-! ### Callbacks -/

/-- Evaluation as a visitor of the stack of the machine. -/
def visitor (assignment : Assignment) : Visitor (List Operand) EvalError where
  onTraversal := .traversal
  constant value := (push (.value value)).perform
  var id := Machine.perform do
    match assignment id with
    | some value => push (.value value)
    | none => throw (.unboundVariable id)
  unary op _ := Machine.perform do
    let args ← popValues 1
    push (.value (← op.apply args))
  binary op _ _ := Machine.perform do
    match op with
    -- the one operator that takes an operand which is not a value
    | .member inclusion =>
        match ← pop 2 with
        | [element, collection] =>
            let n ← element.toValue
            push (.value (Integer.ofBool (collection.contains n == (inclusion == .belongs))))
        | _ => throw (.invalidArity op 0)
    | _ =>
        let args ← popValues 2
        push (.value (← op.apply args))
  nary op operands := Machine.perform do
    let args ← popValues operands.length
    push (.value (← op.apply args))
  ifThenElse _ _ _ := Machine.perform do
    match ← popValues 3 with
    | [condition, ifTrue, ifFalse] =>
        push (.value (if Integer.truthy condition then ifTrue else ifFalse))
    | _ => throw (.unexpectedCollection .ifThenElse)
  range lo hi := (push (.range lo hi)).perform
  set elements := Machine.perform do
    push (.set (← popValues elements.length))

/-! ### Evaluating trees -/

/-- Takes the value of the tree off the stack that its walk has left. -/
def finish (e : Expr) :
    Except EvalError Unit × List Operand → Except EvalError Int × List Operand
  | (.ok _, operand :: stack) => (operand.toValue, stack)
  | (.ok _, []) => (.error (.unexpectedCollection e.kind), [])
  | (.error error, stack) => (.error error, stack)

/-- Evaluates a tree on a cleared stack, and what is left on the stack. -/
def evaluateWithin (limit : Option Nat) (assignment : Assignment) (e : Expr) :
    Except EvalError Int × List Operand :=
  finish e ((visitor assignment).walk limit e [])

/-- Evaluates a tree on a cleared stack and records each visit. -/
def evaluateJournaled (limit : Option Nat) (assignment : Assignment) (e : Expr)
    (journal : Journal) : Except EvalError Int × Journal :=
  let (walked, journal) := (visitor assignment).walkJournaled limit e [] journal
  ((finish e walked).1, journal)

/-- Evaluates a tree without a limit and records each visit, in a span of its
own. -/
def evaluateInSpan (assignment : Assignment) (e : Expr) (journal : Journal) :
    Except EvalError Int × Journal :=
  let journal := (journal.push (.span .evaluate)).push .enter
  let (result, journal) := evaluateJournaled none assignment e journal
  (result, journal.push .exit)

end Eval

/-- The value of a tree under an assignment. -/
def evaluate (assignment : Assignment) (e : Expr) : Except EvalError Int :=
  (Eval.evaluateWithin none assignment e).1

/-- Whether the value of a tree under an assignment counts as true. -/
def satisfies (assignment : Assignment) (e : Expr) : Except EvalError Bool :=
  (evaluate assignment e).map Integer.truthy

end ConstraintExpr
