import ConstraintExpr.Integer.Numeral
import ConstraintExpr.Walk.Visitor

/-!
# Evaluation errors

Why a tree has no value under an assignment, and the text for each cause.
-/

namespace ConstraintExpr

/-- Why an evaluation fails. -/
inductive EvalError where
  /-- The assignment has no value for the variable. -/
  | unboundVariable (id : String)
  /-- The divisor of a division or of a remainder is zero. -/
  | divisionByZero
  /-- A power has a negative exponent. -/
  | negativeExponent
  /-- A power would be too wide. -/
  | exponentTooLarge (exponent : Int)
  /-- A range or a set stands where a value is needed, or the operands of a
  conditional are missing. -/
  | unexpectedCollection (kind : NodeKind)
  /-- An operator got a number of operands it cannot be applied to. -/
  | invalidArity (op : Operator) (found : Nat)
  /-- The walk failed by itself. -/
  | traversal (error : TraversalError)
  /-- Integer arithmetic refused its operands. -/
  | integer (fault : Integer.Fault)
  deriving DecidableEq, Repr

/-- The text of an evaluation error. -/
def EvalError.message : EvalError → String
  | .unboundVariable id => "variable `" ++ id ++ "` has no value"
  | .divisionByZero => "division by zero"
  | .negativeExponent => "negative exponent in `pow`"
  | .exponentTooLarge exponent => "exponent " ++ Numeral.render exponent ++ " is too large"
  | .unexpectedCollection kind => "a " ++ kind.name ++ " node cannot be used as a value"
  | .invalidArity op found =>
      "cannot apply `" ++ op.name ++ "` to " ++ found.repr ++ " operand(s)"
  | .traversal error => error.message
  | .integer fault => fault.message

end ConstraintExpr
