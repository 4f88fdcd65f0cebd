import ConstraintExpr.Walk.Basic

/-!
# Stack machines

A reduction computes a result for every node from the results of its children.
As a visitor it keeps the results that no parent has used yet on a stack, the
newest on top: each callback takes as many results as its node has children,
or all there are when that is too few, and puts the result of the node in
their place. Results stay taken when the node then fails.
-/

namespace ConstraintExpr

/-- The result of a node from the results of its children, which come in the
order of the children. -/
structure Reduction (α ε : Type) where
  /-- How the failures of the walk itself are reported. -/
  onTraversal : TraversalError → ε
  /-- The result of a node with the given label, or why it has none. -/
  combine : Label → List α → Except ε α

namespace Reduction

variable {α ε : Type}

/-- Replaces the results of the children of a node by its own. -/
def act (r : Reduction α ε) (label : Label) : Action (List α) ε := fun stack =>
  -- the newest result belongs to the last child; a short stack gives all it has
  let operands := (stack.take label.childCount).reverse
  let rest := stack.drop label.childCount
  match r.combine label operands with
  | .ok result => (.ok (), result :: rest)
  | .error error => (.error error, rest)

/-- The reduction as a visitor of its stack. -/
def visitor (r : Reduction α ε) : Visitor (List α) ε where
  onTraversal := r.onTraversal
  constant value := r.act (.constant value)
  var id := r.act (.var id)
  unary op _ := r.act (.unary op)
  binary op _ _ := r.act (.binary op)
  nary op operands := r.act (.nary op operands.length)
  ifThenElse _ _ _ := r.act .ifThenElse
  range lo hi := r.act (.range lo hi)
  set elements := r.act (.set elements.length)

/-- The callback for a node depends on its label only. -/
theorem visit_visitor (r : Reduction α ε) (e : Expr) : r.visitor.visit e = r.act e.label := by
  cases e <;> rfl

end Reduction

end ConstraintExpr
