import ConstraintExpr.Eval.Power

/-!
# Applying operators

What each operator but the set-belonging ones computes from the values of its
operands, in their order. An operator that gets a number of operands it cannot
be applied to says how many it got.
-/

namespace ConstraintExpr

open Integer (truthy ofBool)

/-- Applies an arithmetic operator. -/
def ArithOp.apply (op : ArithOp) (operands : List Int) : Except EvalError Int :=
  match op, operands with
  | .neg, [a] => .ok (-a)
  | .abs, [a] => .ok (Integer.abs a)
  | .sqr, [a] => .ok (a * a)
  | .sub, [a, b] => .ok (a - b)
  | .div, [a, b] =>
      if b = 0 then .error .divisionByZero else (Integer.quotient a b).mapError .integer
  | .mod, [a, b] =>
      if b = 0 then .error .divisionByZero else (Integer.remainder a b).mapError .integer
  | .pow, [a, b] => Eval.power a b
  | .dist, [a, b] => .ok (Integer.abs (a - b))
  | .add, a :: rest => .ok (rest.foldl (· + ·) a)
  | .mul, a :: rest => .ok (rest.foldl (· * ·) a)
  | .min, a :: rest => .ok (rest.foldl Min.min a)
  | .max, a :: rest => .ok (rest.foldl Max.max a)
  | _, _ => .error (.invalidArity (.arith op) operands.length)

/-- Applies a Boolean operator. The result is one or zero. -/
def BoolOp.apply (op : BoolOp) (operands : List Int) : Except EvalError Int :=
  match op, operands with
  | .not, [a] => .ok (ofBool !truthy a)
  | .imp, [a, b] => .ok (ofBool (!truthy a || truthy b))
  | .and, _ :: _ => .ok (ofBool (operands.all truthy))
  | .or, _ :: _ => .ok (ofBool (operands.any truthy))
  | .xor, _ :: _ => .ok (ofBool (operands.countP truthy % 2 == 1))
  | .iff, a :: rest => .ok (ofBool (rest.all fun b => truthy b == truthy a))
  | _, _ => .error (.invalidArity (.logic op) operands.length)

/-- Applies a relational operator. The result is one or zero. -/
def RelOp.apply (op : RelOp) (operands : List Int) : Except EvalError Int :=
  match operands with
  | [a, b] => .ok (ofBool (op.holds a b))
  | _ => .error (.invalidArity (.rel op) operands.length)

/-- Applies an operator to values. A set-belonging operator has no meaning on
values alone. -/
def Operator.apply (op : Operator) (operands : List Int) : Except EvalError Int :=
  match op with
  | .arith op => op.apply operands
  | .logic op => op.apply operands
  | .rel op => op.apply operands
  | .member _ => .error (.invalidArity op operands.length)

end ConstraintExpr
