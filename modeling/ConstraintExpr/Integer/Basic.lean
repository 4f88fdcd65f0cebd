import ConstraintExpr.Integer.Native

/-!
# Integers of any size

Values are integers without a bound. Division truncates toward zero and the
remainder takes the sign of the dividend. What the operations leave to the library
(`Integer.Library`) is left to the native one where no other is given; what is
assumed of any other is `Integer.Library.ArithmeticLaws`.

* `Integer.bitLength` is the number of bits of the magnitude;
* `Integer.quotient` and `Integer.remainder` refuse a zero divisor
  (`Integer.quotient_of_ne_zero`, `Integer.remainder_of_ne_zero`);
* `Integer.truthy` and `Integer.ofBool` read an integer as a truth value and
  back: anything but zero is true, and true is one.
-/

namespace ConstraintExpr.Integer

/-- What integer arithmetic refuses: a zero divisor. -/
inductive Fault where
  | zeroDivisor
  deriving DecidableEq, Repr, Inhabited

def Fault.message : Fault → String
  | .zeroDivisor => "divisor must not be 0"

/-- The quotient of `a` and `b`, truncated toward zero. -/
def quotient (a b : Int) (library : Library := .native) : Except Fault Int :=
  if b = 0 then .error .zeroDivisor else .ok (library.quotient a b)

/-- The remainder of the truncated division of `a` by `b`. -/
def remainder (a b : Int) (library : Library := .native) : Except Fault Int :=
  if b = 0 then .error .zeroDivisor else .ok (library.remainder a b)

theorem quotient_of_ne_zero {a b : Int} (hb : b ≠ 0) : quotient a b = .ok (a.tdiv b) :=
  if_neg hb

theorem remainder_of_ne_zero {a b : Int} (hb : b ≠ 0) : remainder a b = .ok (a.tmod b) :=
  if_neg hb

def abs (n : Int) : Int :=
  n.natAbs

/-- `base` multiplied by itself `exponent` times; one when `exponent` is zero. -/
def pow (base : Int) (exponent : Nat) (library : Library := .native) : Int :=
  library.pow base exponent

/-- The number of bits of the magnitude; zero has none. -/
def bitLength (n : Int) (library : Library := .native) : Nat :=
  library.bitLength n

/-- Whether an integer counts as true. -/
def truthy (n : Int) : Bool :=
  n != 0

/-- One for true, zero for false. -/
def ofBool (b : Bool) : Int :=
  if b then 1 else 0

/-- The integer itself, if it fits in a signed word of 64 bits. -/
def toSigned64? (n : Int) : Option Int :=
  if -9223372036854775808 ≤ n ∧ n ≤ 9223372036854775807 then some n else none

/-- The integer as a natural number, if it fits in an unsigned word of 32 bits. -/
def toUnsigned32? (n : Int) : Option Nat :=
  if 0 ≤ n ∧ n ≤ 4294967295 then some n.toNat else none

/-- Whether `n` lies in the closed interval from `lo` to `hi`. -/
def within (lo hi n : Int) : Bool :=
  lo ≤ n && n ≤ hi

end ConstraintExpr.Integer
