import ConstraintExpr.Expr.Basic

/-!
# Taking trees apart

A tree is taken apart into shallow pieces. Each child that has children of its
own is detached from its parent and put on a list of trees to be taken apart,
and an empty set is left in its place; what is left of the parent is a piece,
and no child of a piece has children.

* `Expr.detachChildren` goes through the children of the root in order;
  `Expr.detachChildren_run` says what is left and what is detached;
* `Expr.dismantle` lists the pieces of a tree.
-/

namespace ConstraintExpr.Expr

/-- What is left in the place of a detached tree. -/
def placeholder : Expr :=
  .set []

/-! ### Detaching children -/

/-- Puts a child that has children on top of the list and leaves a placeholder in its
place. -/
def detachSlot (child : Expr) : StateM (List Expr) Expr := do
  if child.hasChildren then
    modify (child :: ·)
    return placeholder
  return child

/-- Detaches the children of the root that have children, one after another. -/
def detachChildren : Expr → StateM (List Expr) Expr
  | .constant value => return .constant value
  | .var id => return .var id
  | .unary op operand => return .unary op (← operand.detachSlot)
  | .binary op left right => return .binary op (← left.detachSlot) (← right.detachSlot)
  | .nary op operands => return .nary op (← operands.mapM detachSlot)
  | .ifThenElse condition ifTrue ifFalse =>
      return .ifThenElse (← condition.detachSlot) (← ifTrue.detachSlot) (← ifFalse.detachSlot)
  | .range lo hi => return .range lo hi
  | .set elements => return .set (← elements.mapM detachSlot)

/-- What is left of a child when it is detached if it has children. -/
def leave (child : Expr) : Expr :=
  if child.hasChildren then placeholder else child

/-- The root with what is left of its children. -/
def piece : Expr → Expr
  | .constant value => .constant value
  | .var id => .var id
  | .unary op operand => .unary op operand.leave
  | .binary op left right => .binary op left.leave right.leave
  | .nary op operands => .nary op (operands.map leave)
  | .ifThenElse condition ifTrue ifFalse =>
      .ifThenElse condition.leave ifTrue.leave ifFalse.leave
  | .range lo hi => .range lo hi
  | .set elements => .set (elements.map leave)

/-- The children that are detached, in order. -/
def detached (e : Expr) : List Expr :=
  e.children.filter hasChildren

/-- A list with what is detached from the children on top, the last one first. -/
def detachedOnto (out children : List Expr) : List Expr :=
  (children.filter hasChildren).reverse ++ out

theorem detachedOnto_cons (out : List Expr) (child : Expr) (children : List Expr) :
    detachedOnto out (child :: children) = detachedOnto (detachedOnto out [child]) children := by
  have hfilter : (child :: children).filter hasChildren =
      [child].filter hasChildren ++ children.filter hasChildren :=
    List.filter_append [child] children
  rw [detachedOnto, hfilter, List.reverse_append, List.append_assoc]
  rfl

theorem detachSlot_run (child : Expr) (out : List Expr) :
    child.detachSlot.run out = (child.leave, detachedOnto out [child]) := by
  cases h : child.hasChildren <;> simp [detachSlot, leave, detachedOnto, h] <;> rfl

theorem mapM_detachSlot_run (es out : List Expr) :
    (es.mapM detachSlot).run out = (es.map leave, detachedOnto out es) := by
  induction es generalizing out with
  | nil => rfl
  | cons e es ih =>
      rw [List.mapM_cons, detachedOnto_cons]
      simp only [StateT.run_bind, detachSlot_run, ih, StateT.run_pure]
      rfl

/-- The children with children are on top of the list, the last one first, and the
piece of the root is left. -/
theorem detachChildren_run (e : Expr) (out : List Expr) :
    e.detachChildren.run out = (e.piece, e.detached.reverse ++ out) := by
  show e.detachChildren.run out = (e.piece, detachedOnto out e.children)
  cases e with
  | constant value => rfl
  | var id => rfl
  | unary op operand =>
      simp only [detachChildren, StateT.run_bind, detachSlot_run, StateT.run_pure]
      rfl
  | binary op left right =>
      rw [children, detachedOnto_cons]
      simp only [detachChildren, StateT.run_bind, detachSlot_run, StateT.run_pure]
      rfl
  | nary op operands =>
      simp only [detachChildren, StateT.run_bind, mapM_detachSlot_run, StateT.run_pure]
      rfl
  | ifThenElse condition ifTrue ifFalse =>
      rw [children, detachedOnto_cons, detachedOnto_cons]
      simp only [detachChildren, StateT.run_bind, detachSlot_run, StateT.run_pure]
      rfl
  | range lo hi => rfl
  | set elements =>
      simp only [detachChildren, StateT.run_bind, mapM_detachSlot_run, StateT.run_pure]
      rfl

/-- Detaching never takes more nodes than the children have. -/
theorem totalSize_detached_le (e : Expr) : totalSize e.detached ≤ totalSize e.children := by
  unfold detached
  induction e.children with
  | nil => simp
  | cons c cs ih =>
      rw [List.filter_cons]
      split <;> simp only [totalSize] <;> omega

/-! ### The pieces of a tree -/

/-- The pieces of the pending trees. The tree detached last is taken apart
first. -/
def dismantleAll : List Expr → List Expr
  | [] => []
  | e :: pending =>
      (e.detachChildren.run pending).1 :: dismantleAll (e.detachChildren.run pending).2
termination_by pending => totalSize pending
decreasing_by
  have := e.totalSize_detached_le
  simp only [detachChildren_run, totalSize_append, totalSize_reverse, totalSize, size_eq e]
  omega

/-- The pieces of a tree in the order in which they are released: the root,
whose children are detached first, is released last. -/
def dismantle (e : Expr) : List Expr :=
  dismantleAll (e.detachChildren.run []).2 ++ [(e.detachChildren.run []).1]

theorem dismantleAll_cons (e : Expr) (pending : List Expr) :
    dismantleAll (e :: pending) = e.piece :: dismantleAll (e.detached.reverse ++ pending) := by
  rw [dismantleAll, detachChildren_run]

theorem dismantle_eq (e : Expr) :
    e.dismantle = dismantleAll e.detached.reverse ++ [e.piece] := by
  rw [dismantle, detachChildren_run, List.append_nil]

end ConstraintExpr.Expr
