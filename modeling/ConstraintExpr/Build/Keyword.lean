import ConstraintExpr.Build.Basic

/-!
# Builders by keyword

One builder per keyword of the vocabulary, so that the operator always has the
arity of the node: what these builders refuse is a collection in a value
position, or an empty operand list. The builders of memberships make the range
or the set themselves.
-/

namespace ConstraintExpr.Build

/-! ### Unary keywords -/

def neg (operand : Expr) : Build Expr := unary (.arith .neg) operand

def abs (operand : Expr) : Build Expr := unary (.arith .abs) operand

def sqr (operand : Expr) : Build Expr := unary (.arith .sqr) operand

def not (operand : Expr) : Build Expr := unary (.logic .not) operand

/-! ### Binary keywords -/

def sub (left right : Expr) : Build Expr := binary (.arith .sub) left right

/-- The truncated quotient of the operands. -/
def div (left right : Expr) : Build Expr := binary (.arith .div) left right

/-- The remainder of the truncated division. -/
def mod (left right : Expr) : Build Expr := binary (.arith .mod) left right

def pow (left right : Expr) : Build Expr := binary (.arith .pow) left right

def dist (left right : Expr) : Build Expr := binary (.arith .dist) left right

/-- The left operand implies the right one. -/
def imp (left right : Expr) : Build Expr := binary (.logic .imp) left right

def lt (left right : Expr) : Build Expr := binary (.rel .lt) left right

def le (left right : Expr) : Build Expr := binary (.rel .le) left right

def eq (left right : Expr) : Build Expr := binary (.rel .eq) left right

def ne (left right : Expr) : Build Expr := binary (.rel .ne) left right

def ge (left right : Expr) : Build Expr := binary (.rel .ge) left right

def gt (left right : Expr) : Build Expr := binary (.rel .gt) left right

/-! ### N-ary keywords -/

def add (operands : List Expr) : Build Expr := nary (.arith .add) operands

def mul (operands : List Expr) : Build Expr := nary (.arith .mul) operands

def min (operands : List Expr) : Build Expr := nary (.arith .min) operands

def max (operands : List Expr) : Build Expr := nary (.arith .max) operands

def and (operands : List Expr) : Build Expr := nary (.logic .and) operands

def or (operands : List Expr) : Build Expr := nary (.logic .or) operands

/-- An odd number of operands hold. -/
def xor (operands : List Expr) : Build Expr := nary (.logic .xor) operands

/-- All operands have the same truth value. -/
def iff (operands : List Expr) : Build Expr := nary (.logic .iff) operands

/-! ### Memberships -/

/-- `e` lies in the closed interval from `lo` to `hi`. -/
def inRange (e : Expr) (lo hi : Int) : Build Expr :=
  binary (.member .belongs) e (.range lo hi)

/-- `e` lies outside the closed interval from `lo` to `hi`. -/
def notInRange (e : Expr) (lo hi : Int) : Build Expr :=
  binary (.member .avoids) e (.range lo hi)

/-- `e` equals one of the elements. The elements are checked before `e`. -/
def inSet (e : Expr) (elements : List Expr) : Build Expr := do
  binary (.member .belongs) e (← set elements)

/-- `e` equals none of the elements. The elements are checked before `e`. -/
def notInSet (e : Expr) (elements : List Expr) : Build Expr := do
  binary (.member .avoids) e (← set elements)

end ConstraintExpr.Build
