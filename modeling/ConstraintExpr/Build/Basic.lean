import ConstraintExpr.Journal

/-!
# Checked builders

A tree is made of constants, variables and ranges, which need no check, and of
the nodes that the builders below accept. A builder checks its own node only:

* the operator has the arity of the node, and the operand count fits it;
* a range or a set stands on the right of a set-belonging operator, where one
  has to stand, and nowhere else.

The checks run in that order, operands from left to right, and the first
violation is the error. A refusal leaves one record in the journal.
-/

namespace ConstraintExpr

/-- Why a node is refused. -/
inductive BuildError where
  /-- The operator does not fit the node or the number of operands given. -/
  | invalidArity (op : Operator) (expected : Arity) (found : Nat)
  /-- A range or a set stands where a value belongs. -/
  | misplacedCollection (kind : NodeKind)
  /-- The right operand of a set-belonging operator is neither a range nor a
  set. -/
  | missingCollection (op : Operator) (found : NodeKind)
  deriving DecidableEq, Repr

/-- The text of a refusal. -/
def BuildError.message : BuildError → String
  | .invalidArity op expected found =>
      "operator `" ++ op.name ++ "` is " ++ expected.name ++ " but was given " ++ found.repr ++
        " operand(s)"
  | .misplacedCollection kind =>
      "a " ++ kind.name ++ " node may only appear as the right operand of `in` or `notin`"
  | .missingCollection op found =>
      "the right operand of `" ++ op.name ++ "` must be a set or a range, found a " ++ found.name ++
        " node"

/-- A computation that may refuse a node and keeps a journal either way. -/
abbrev Build (α : Type) := ExceptT BuildError (StateM Journal) α

namespace Build

/-- Runs a builder on a journal. -/
def runWith {α : Type} (build : Build α) (journal : Journal) : Except BuildError α × Journal :=
  (ExceptT.run build).run journal

/-- What a builder returns, or why it refuses. -/
def result {α : Type} (build : Build α) : Except BuildError α :=
  (build.runWith #[]).1

/-- The records that a builder makes. -/
def journal {α : Type} (build : Build α) : Journal :=
  (build.runWith #[]).2

/-- Records the event, then refuses. -/
def refuse {α : Type} (event : Event) (error : BuildError) : Build α := do
  modify fun journal => journal.push (.event event)
  throw error

/-! ### The checks -/

/-- Checks that `op` has the arity of the node and admits `found` operands. -/
def checkArity (op : Operator) (shape : Arity) (found : Nat) : Build Unit :=
  if op.arity = shape ∧ shape.accepts found then
    pure ()
  else
    refuse (.mismatchedArity op op.arity found) (.invalidArity op op.arity found)

/-- Checks that a tree may stand where a value belongs. -/
def checkValue (e : Expr) : Build Unit :=
  if e.isCollection then
    refuse (.misplacedCollection e.kind) (.misplacedCollection e.kind)
  else
    pure ()

/-- Checks that every tree of a list may stand where a value belongs. -/
def checkValues : List Expr → Build Unit
  | [] => pure ()
  | e :: es => do
      checkValue e
      checkValues es

/-- Checks that a tree may be the right operand of the set-belonging operator
`op`. -/
def checkCollection (op : Operator) (e : Expr) : Build Unit :=
  if e.isCollection then
    pure ()
  else
    refuse (.missingCollection op e.kind) (.missingCollection op e.kind)

/-! ### The builders -/

/-- Applies a unary operator. -/
def unary (op : Operator) (operand : Expr) : Build Expr := do
  checkArity op .unary 1
  checkValue operand
  return .unary op operand

/-- Applies a binary operator. -/
def binary (op : Operator) (left right : Expr) : Build Expr := do
  checkArity op .binary 2
  checkValue left
  if op.isSetBelonging then checkCollection op right else checkValue right
  return .binary op left right

/-- Applies an n-ary operator. -/
def nary (op : Operator) (operands : List Expr) : Build Expr := do
  checkArity op .nary operands.length
  checkValues operands
  return .nary op operands

/-- Makes a conditional. -/
def ifThenElse (condition ifTrue ifFalse : Expr) : Build Expr := do
  checkValue condition
  checkValue ifTrue
  checkValue ifFalse
  return .ifThenElse condition ifTrue ifFalse

/-- Makes a set. -/
def set (elements : List Expr) : Build Expr := do
  checkValues elements
  return .set elements

end Build

end ConstraintExpr
