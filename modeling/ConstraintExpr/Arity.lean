/-!
# Arities

How many operands a node carries. An operator belongs to exactly one of three
arity families, and the family decides which shape of node may carry it.

* `Arity.accepts` says which operand counts fit a family;
* `Arity.name` is the word that messages use for it.
-/

namespace ConstraintExpr

/-- The arity family of an operator: one operand, two in a significant order, or
one and more. -/
inductive Arity where
  | unary
  | binary
  | nary
  deriving DecidableEq, Repr, Inhabited

namespace Arity

/-- The families from the narrowest to the widest. -/
def all : List Arity := [.unary, .binary, .nary]

/-- Whether a node with `count` operands fits the family. -/
def accepts : Arity → Nat → Bool
  | .unary, count => count == 1
  | .binary, count => count == 2
  | .nary, count => 1 ≤ count

/-- The word for the family in messages. -/
def name : Arity → String
  | .unary => "unary"
  | .binary => "binary"
  | .nary => "n-ary"

end Arity

end ConstraintExpr
