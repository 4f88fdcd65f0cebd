import ConstraintExpr.Eval.Machine

/-!
# Evaluation as a reduction

The callbacks of the evaluator have a common form: the operands of the children are
taken off the stack, and the operand of the node, if it has one, takes their place.

* `Eval.combine` is the operand of a node from those of its children;
* `Eval.visitor_eq_reduction`: every callback of the evaluator, with all that it takes
  and leaves, is that of the reduction by `Eval.combine`.
-/

namespace ConstraintExpr.Eval

/-! ### Operands of nodes -/

/-- Whether the last operand contains the one before it, as the set-belonging
operator asks. -/
def membership (op : SetOp) (operands : List Operand) : Except EvalError Operand :=
  match operands with
  | [element, collection] => do
      let n ← element.toValue
      return .value (Integer.ofBool (collection.contains n == (op == .belongs)))
  | _ => .error (.invalidArity (.member op) 0)

/-- The value of an operator applied to operands. -/
def operation (op : Operator) (operands : List Operand) : Except EvalError Operand := do
  return .value (← op.apply (← Operand.toValues operands))

/-- The branch that the condition selects. -/
def selection (operands : List Operand) : Except EvalError Operand := do
  match ← Operand.toValues operands with
  | [condition, ifTrue, ifFalse] =>
      return .value (if Integer.truthy condition then ifTrue else ifFalse)
  | _ => throw (.unexpectedCollection .ifThenElse)

/-- The operand of a node from those of its children. -/
def combine (assignment : Assignment) : Label → List Operand → Except EvalError Operand
  | .constant value, _ => .ok (.value value)
  | .var id, _ =>
      match assignment id with
      | some value => .ok (.value value)
      | none => .error (.unboundVariable id)
  -- the one operator that takes an operand which is not a value
  | .binary (.member op), operands => membership op operands
  | .unary op, operands | .binary op, operands | .nary op _, operands => operation op operands
  | .ifThenElse, operands => selection operands
  | .range lo hi, _ => .ok (.range lo hi)
  | .set _, operands => do return .set (← Operand.toValues operands)

/-- Evaluation as a reduction. -/
def reduction (assignment : Assignment) : Reduction Operand EvalError where
  onTraversal := .traversal
  combine := combine assignment

/-! ### Work on the stack -/

namespace Machine

/-- Takes operands off the stack and puts there what is computed from them. -/
def replace (count : Nat) (compute : List Operand → Except EvalError Operand) : Machine Unit := do
  push (← compute (← pop count))

variable {α β : Type} (stack : List Operand)

theorem perform_bind (work : Machine α) (rest : α → Machine β) :
    (work >>= rest).perform stack =
      match work.perform stack with
      | (.ok a, next) => (rest a).perform next
      | (.error error, next) => (.error error, next) := by
  unfold perform
  rw [ExceptT.run_bind, StateT.run_bind]
  rcases work.run.run stack with ⟨_ | _, _⟩ <;> rfl

theorem perform_pop (count : Nat) :
    (pop count).perform stack = (.ok (stack.take count).reverse, stack.drop count) :=
  rfl

/-- What is computed without the stack leaves it alone. -/
theorem perform_lift (result : Except EvalError α) :
    (liftM result : Machine α).perform stack = (result, stack) := by
  cases result <;> rfl

/-- The operands stay taken when nothing can be computed from them. -/
theorem perform_replace (count : Nat) (compute : List Operand → Except EvalError Operand) :
    (replace count compute).perform stack =
      match compute (stack.take count).reverse with
      | .ok operand => (.ok (), operand :: stack.drop count)
      | .error error => (.error error, stack.drop count) := by
  rw [replace, perform_bind, perform_pop]
  dsimp only
  rw [perform_bind, perform_lift]
  cases compute (stack.take count).reverse <;> rfl

end Machine

/-! ### Callbacks -/

open Machine (replace)

theorem act_eq_perform (assignment : Assignment) (label : Label) :
    (reduction assignment).act label =
      (replace label.childCount (combine assignment label)).perform := by
  funext stack
  rw [Machine.perform_replace, Reduction.act]
  dsimp only [reduction]
  cases combine assignment label (stack.take label.childCount).reverse <;> rfl

theorem lookup_eq_replace (assignment : Assignment) (id : String) :
    (match assignment id with
      | some value => push (.value value)
      | none => throw (.unboundVariable id)) =
      replace 0 (combine assignment (.var id)) := by
  simp only [replace, combine]
  cases assignment id <;> rfl

theorem operation_eq_replace (op : Operator) (count : Nat) :
    (do let args ← popValues count; push (.value (← op.apply args))) =
      replace count (operation op) := by
  simp only [replace, popValues, operation, bind_assoc, liftM_bind, liftM_pure, pure_bind]

theorem membership_eq_replace (op : SetOp) :
    (do
      match ← pop 2 with
      | [element, collection] =>
          let n ← element.toValue
          push (.value (Integer.ofBool (collection.contains n == (op == .belongs))))
      | _ => throw (.invalidArity (.member op) 0)) =
      replace 2 (membership op) := by
  refine bind_congr fun operands => ?_
  unfold membership
  split
  · simp only [liftM_bind, liftM_pure, bind_assoc, pure_bind]
  · rfl

theorem selection_eq_replace :
    (do
      match ← popValues 3 with
      | [condition, ifTrue, ifFalse] =>
          push (.value (if Integer.truthy condition then ifTrue else ifFalse))
      | _ => throw (.unexpectedCollection .ifThenElse)) =
      replace 3 selection := by
  simp only [replace, popValues, selection, bind_assoc, liftM_bind]
  refine bind_congr fun operands => bind_congr fun args => ?_
  split <;> rfl

theorem elements_eq_replace (assignment : Assignment) (count : Nat) :
    (do push (.set (← popValues count))) = replace count (combine assignment (.set count)) := by
  simp only [replace, popValues, combine, bind_assoc, liftM_bind, liftM_pure, pure_bind]

/-- Each callback does at its node what the reduction does there. -/
theorem visit_eq_act (assignment : Assignment) (e : Expr) :
    (visitor assignment).visit e = (reduction assignment).act e.label := by
  rw [act_eq_perform]
  cases e with
  | constant value => rfl
  | var id => exact congrArg Machine.perform (lookup_eq_replace assignment id)
  | unary op operand => exact congrArg Machine.perform (operation_eq_replace op 1)
  | binary op left right =>
      cases op with
      | member inclusion => exact congrArg Machine.perform (membership_eq_replace inclusion)
      | arith op => exact congrArg Machine.perform (operation_eq_replace (.arith op) 2)
      | logic op => exact congrArg Machine.perform (operation_eq_replace (.logic op) 2)
      | rel op => exact congrArg Machine.perform (operation_eq_replace (.rel op) 2)
  | nary op operands => exact congrArg Machine.perform (operation_eq_replace op operands.length)
  | ifThenElse condition ifTrue ifFalse => exact congrArg Machine.perform selection_eq_replace
  | range lo hi => rfl
  | set elements =>
      exact congrArg Machine.perform (elements_eq_replace assignment elements.length)

/-- The evaluator is the machine of the reduction. -/
theorem visitor_eq_reduction (assignment : Assignment) :
    visitor assignment = (reduction assignment).visitor := by
  refine Visitor.ext_visit rfl fun e => ?_
  rw [visit_eq_act, Reduction.visit_visitor]

end ConstraintExpr.Eval
