import ConstraintExpr.Expr.Basic

/-!
# Counting nodes and levels

Both counts keep the subtrees still to be looked at on an explicit stack, so
that a tree of any depth is counted in constant call depth. The children of a
node are put on the stack in order, and the last one is looked at first.

* `Expr.nodeCount` is the number of nodes;
* `Expr.depth` is the number of levels, one for a lone leaf.
-/

namespace ConstraintExpr.Expr

/-- Counts the nodes of the pending trees on top of `count`. -/
def countNodes (count : Nat) : List Expr → Nat
  | [] => count
  | e :: pending => countNodes (count + 1) (e.children.reverse ++ pending)
termination_by pending => totalSize pending
decreasing_by
  simp only [totalSize_append, totalSize_reverse, totalSize, size_eq e]
  omega

/-- The number of nodes of a tree. -/
def nodeCount (e : Expr) : Nat :=
  countNodes 0 [e]

/-- The deepest level among `deepest` and those of the pending trees, each of
which comes with the level of its root. -/
def deepestLevel (deepest : Nat) : List (Expr × Nat) → Nat
  | [] => deepest
  | (e, level) :: pending =>
      deepestLevel (max deepest level)
        ((e.children.map fun child => (child, level + 1)).reverse ++ pending)
termination_by pending => totalSize (pending.map Prod.fst)
decreasing_by
  simp only [List.map_append, List.map_reverse, List.map_map, List.map_cons, Function.comp_def,
    List.map_id', totalSize_append, totalSize_reverse, totalSize, size_eq e]
  omega

/-- The number of levels of a tree; a lone leaf has one. -/
def depth (e : Expr) : Nat :=
  deepestLevel 0 [(e, 1)]

end ConstraintExpr.Expr
