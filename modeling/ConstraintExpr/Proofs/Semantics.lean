import Mathlib.Algebra.BigOperators.Group.List.Basic
import Mathlib.Algebra.Order.Ring.Int
import Mathlib.Data.Nat.Size
import ConstraintExpr.Eval.Reduction

/-!
# The meaning of trees

The value of a tree by recursion over the tree. All children of a node are
evaluated, from left to right, whatever the operator, and the first failure is
the failure of the node; the values of the children are then combined.

* `Meaning.unary`, `Meaning.binary` and `Meaning.nary` say what the operators
  mean on values;
* `Meaning.value` is the value of a tree, and `Meaning.members` what a range or
  a set contains.

An operator that does not fit its node, and a collection in the place of a
value or the other way round, have no meaning. What happens for them is fixed
only to make the functions total.
-/

namespace ConstraintExpr.Meaning

/-! ### Operators -/

/-- One for what holds, zero for what does not. -/
def indicator (p : Prop) [Decidable p] : Int :=
  if p then 1 else 0

/-- The power, unless the exponent is negative or so large that the bits of the
base times the exponent exceed two to the twenty-fourth. -/
def power (base exponent : Int) : Except EvalError Int :=
  if exponent < 0 then
    .error .negativeExponent
  else if 1 < base.natAbs ∧ 2 ^ 24 < base.natAbs.size * exponent.toNat then
    .error (.exponentTooLarge exponent)
  else
    .ok (base ^ exponent.toNat)

/-- The comparison that an operator stands for. -/
def Compares : RelOp → Int → Int → Prop
  | .lt, x, y => x < y
  | .le, x, y => x ≤ y
  | .eq, x, y => x = y
  | .ne, x, y => x ≠ y
  | .ge, x, y => x ≥ y
  | .gt, x, y => x > y

instance (op : RelOp) (x y : Int) : Decidable (Compares op x y) :=
  match op with
  | .lt => inferInstanceAs (Decidable (x < y))
  | .le => inferInstanceAs (Decidable (x ≤ y))
  | .eq => inferInstanceAs (Decidable (x = y))
  | .ne => inferInstanceAs (Decidable (x ≠ y))
  | .ge => inferInstanceAs (Decidable (x ≥ y))
  | .gt => inferInstanceAs (Decidable (x > y))

def unary : Operator → Int → Except EvalError Int
  | .arith .neg, x => .ok (-x)
  | .arith .abs, x => .ok |x|
  | .arith .sqr, x => .ok (x ^ 2)
  | .logic .not, x => .ok (indicator (x = 0))
  | op, _ => .error (.invalidArity op 1)

def binary : Operator → Int → Int → Except EvalError Int
  | .arith .sub, x, y => .ok (x - y)
  | .arith .div, x, y => if y = 0 then .error .divisionByZero else .ok (x.tdiv y)
  | .arith .mod, x, y => if y = 0 then .error .divisionByZero else .ok (x.tmod y)
  | .arith .pow, x, y => power x y
  | .arith .dist, x, y => .ok |x - y|
  | .logic .imp, x, y => .ok (indicator (x ≠ 0 → y ≠ 0))
  | .rel op, x, y => .ok (indicator (Compares op x y))
  | op, _, _ => .error (.invalidArity op 2)

def nary : Operator → List Int → Except EvalError Int
  | .arith .add, xs => .ok xs.sum
  | .arith .mul, xs => .ok xs.prod
  | .arith .min, x :: xs => .ok ((x :: xs).min (List.cons_ne_nil x xs))
  | .arith .max, x :: xs => .ok ((x :: xs).max (List.cons_ne_nil x xs))
  | .logic .and, xs => .ok (indicator (∀ x ∈ xs, x ≠ 0))
  | .logic .or, xs => .ok (indicator (∃ x ∈ xs, x ≠ 0))
  | .logic .xor, xs => .ok (indicator (Odd (xs.countP (· ≠ 0))))
  | .logic .iff, xs => .ok (indicator (∀ x ∈ xs, ∀ y ∈ xs, x ≠ 0 ↔ y ≠ 0))
  | op, xs => .error (.invalidArity op xs.length)

/-! ### Trees -/

mutual

/-- The value of a tree. -/
def value (assignment : Assignment) : Expr → Except EvalError Int
  | .constant n => .ok n
  | .var id =>
      match assignment id with
      | some n => .ok n
      | none => .error (.unboundVariable id)
  | .unary op operand => do
      let x ← value assignment operand
      unary op x
  | .binary (.member op) element collection => do
      let x ← value assignment element
      let contains ← members assignment collection
      return indicator (contains x = true ↔ op = .belongs)
  | .binary op left right => do
      let x ← value assignment left
      let y ← value assignment right
      binary op x y
  | .nary op operands => do
      let xs ← values assignment operands
      nary op xs
  | .ifThenElse condition ifTrue ifFalse => do
      let x ← value assignment condition
      let y ← value assignment ifTrue
      let z ← value assignment ifFalse
      return if x ≠ 0 then y else z
  | .range _ _ => .error (.unexpectedCollection .range)
  | .set _ => .error (.unexpectedCollection .set)

/-- Which integers a range or a set contains. -/
def members (assignment : Assignment) : Expr → Except EvalError (Int → Bool)
  | .range lo hi => .ok fun x => decide (lo ≤ x ∧ x ≤ hi)
  | .set elements => do
      let xs ← values assignment elements
      return fun x => decide (x ∈ xs)
  | e => .error (.unexpectedCollection e.kind)

/-- The values of trees from left to right. -/
def values (assignment : Assignment) : List Expr → Except EvalError (List Int)
  | [] => return []
  | e :: es => do
      let x ← value assignment e
      let xs ← values assignment es
      return x :: xs

end

end ConstraintExpr.Meaning
