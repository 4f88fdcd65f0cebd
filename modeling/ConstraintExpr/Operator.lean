import ConstraintExpr.Arity

/-!
# Operators

The closed vocabulary of operators, in four families:

* arithmetic (`ArithOp`), on integer values;
* Boolean (`BoolOp`), on truth values, where any non-zero integer is true;
* relational (`RelOp`), comparing two values of an ordered type;
* set-belonging (`SetOp`), whose right operand is a set or a range.

Each operator has one keyword (`Operator.name`) and one arity
(`Operator.arity`). A comparison is decided by the `Ordering` of its operands
(`RelOp.admits`), so that exchanging the operands (`RelOp.reverse`) and
complementing the answer (`RelOp.negate`) are facts about three outcomes.
-/

namespace ConstraintExpr

/-! ### Arithmetic operators -/

/-- The arithmetic operators, in the order of the vocabulary. `div` truncates
toward zero and `mod` is its remainder, `sqr` is the square, and `dist` the
absolute value of a difference. -/
inductive ArithOp where
  | neg
  | abs
  | add
  | sub
  | mul
  | div
  | mod
  | sqr
  | pow
  | min
  | max
  | dist
  deriving DecidableEq, Repr, Inhabited

namespace ArithOp

def all : List ArithOp :=
  [.neg, .abs, .add, .sub, .mul, .div, .mod, .sqr, .pow, .min, .max, .dist]

def arity : ArithOp → Arity
  | .neg | .abs | .sqr => .unary
  | .sub | .div | .mod | .pow | .dist => .binary
  | .add | .mul | .min | .max => .nary

/-- Whether the order of the operands leaves the result alone. -/
def isCommutative : ArithOp → Bool
  | .add | .mul | .min | .max | .dist => true
  | .neg | .abs | .sub | .div | .mod | .sqr | .pow => false

def name : ArithOp → String
  | .neg => "neg"
  | .abs => "abs"
  | .add => "add"
  | .sub => "sub"
  | .mul => "mul"
  | .div => "div"
  | .mod => "mod"
  | .sqr => "sqr"
  | .pow => "pow"
  | .min => "min"
  | .max => "max"
  | .dist => "dist"

end ArithOp

/-! ### Boolean operators -/

/-- The Boolean operators, in the order of the vocabulary. `xor` holds when an
odd number of operands do, and `iff` when all have the same truth value. -/
inductive BoolOp where
  | not
  | and
  | or
  | xor
  | iff
  | imp
  deriving DecidableEq, Repr, Inhabited

namespace BoolOp

def all : List BoolOp := [.not, .and, .or, .xor, .iff, .imp]

def arity : BoolOp → Arity
  | .not => .unary
  | .imp => .binary
  | .and | .or | .xor | .iff => .nary

def name : BoolOp → String
  | .not => "not"
  | .and => "and"
  | .or => "or"
  | .xor => "xor"
  | .iff => "iff"
  | .imp => "imp"

end BoolOp

/-! ### Relational operators -/

/-- The relational operators, in the order of the vocabulary. All are binary. -/
inductive RelOp where
  | lt
  | le
  | eq
  | ne
  | ge
  | gt
  deriving DecidableEq, Repr, Inhabited

namespace RelOp

def all : List RelOp := [.lt, .le, .eq, .ne, .ge, .gt]

/-- The operator that says the same of the exchanged operands. -/
def reverse : RelOp → RelOp
  | .lt => .gt
  | .le => .ge
  | .eq => .eq
  | .ne => .ne
  | .ge => .le
  | .gt => .lt

/-- The operator that says the opposite of the same operands. -/
def negate : RelOp → RelOp
  | .lt => .ge
  | .le => .gt
  | .eq => .ne
  | .ne => .eq
  | .ge => .lt
  | .gt => .le

def name : RelOp → String
  | .lt => "lt"
  | .le => "le"
  | .eq => "eq"
  | .ne => "ne"
  | .ge => "ge"
  | .gt => "gt"

/-- Whether operands that compare as `outcome` satisfy the operator. -/
def admits (op : RelOp) (outcome : Ordering) : Bool :=
  match op with
  | .lt => outcome.isLT
  | .le => outcome.isLE
  | .eq => outcome.isEq
  | .ne => outcome.isNe
  | .ge => outcome.isGE
  | .gt => outcome.isGT

/-- Compares two values of an ordered type with the operator. -/
def holds {α : Type} [Ord α] (op : RelOp) (left right : α) : Bool :=
  op.admits (compare left right)

end RelOp

/-! ### Set-belonging operators -/

/-- Membership and non-membership. The right operand is a set or a range. -/
inductive SetOp where
  | belongs
  | avoids
  deriving DecidableEq, Repr, Inhabited

namespace SetOp

def all : List SetOp := [.belongs, .avoids]

def name : SetOp → String
  | .belongs => "in"
  | .avoids => "notin"

end SetOp

/-! ### The whole vocabulary -/

/-- An operator of any family. -/
inductive Operator where
  | arith (op : ArithOp)
  | logic (op : BoolOp)
  | rel (op : RelOp)
  | member (op : SetOp)
  deriving DecidableEq, Repr, Inhabited

namespace Operator

/-- The whole vocabulary, family after family. -/
def all : List Operator :=
  ArithOp.all.map arith ++ BoolOp.all.map logic ++ RelOp.all.map rel ++ SetOp.all.map member

def arity : Operator → Arity
  | .arith op => op.arity
  | .logic op => op.arity
  | .rel _ | .member _ => .binary

/-- The keyword of an operator. No two operators share one. -/
def name : Operator → String
  | .arith op => op.name
  | .logic op => op.name
  | .rel op => op.name
  | .member op => op.name

/-- Whether the right operand of the operator has to be a set or a range. -/
def isSetBelonging : Operator → Bool
  | .member _ => true
  | .arith _ | .logic _ | .rel _ => false

/-- The operator with the given keyword, if there is one. -/
def ofName? (keyword : String) : Option Operator :=
  all.find? fun op => op.name == keyword

end Operator

end ConstraintExpr
