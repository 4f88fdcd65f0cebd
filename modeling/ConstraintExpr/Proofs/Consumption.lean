import ConstraintExpr.Walk.Reduction

/-!
# What a callback takes off the stack

The callbacks of a stack machine work on any stack, also on one that no walk leaves. The
callback for a node takes one result for each child off the top, or all there are when
these are too few (`Reduction.taken`), and does not look at what is left
(`Reduction.base`).

`Reduction.visit_eq` is what it does with both: the results taken decide whether one
result takes their place or none does. What else is known of callbacks follows from it,
so nothing after this opens them.
-/

namespace ConstraintExpr.Reduction

variable {α ε : Type}

/-- The results that the callback for a node takes, the newest first. -/
def taken (e : Expr) (stack : List α) : List α :=
  stack.take (min e.children.length stack.length)

/-- What the callback for a node leaves of a stack. -/
def base (e : Expr) (stack : List α) : List α :=
  stack.drop (min e.children.length stack.length)

theorem taken_append_base (e : Expr) (stack : List α) : taken e stack ++ base e stack = stack :=
  List.take_append_drop _ stack

/-- A stack that is too short is taken as a whole, however many results are asked for. -/
theorem taken_eq_take (e : Expr) (stack : List α) :
    taken e stack = stack.take e.children.length :=
  List.take_eq_take_min.symm

theorem base_eq_drop (e : Expr) (stack : List α) : base e stack = stack.drop e.children.length :=
  List.drop_eq_drop_min.symm

theorem length_taken (e : Expr) (stack : List α) :
    (taken e stack).length = min e.children.length stack.length := by
  rw [taken_eq_take, List.length_take]

theorem length_taken_le (e : Expr) (stack : List α) :
    (taken e stack).length ≤ e.children.length := by
  rw [length_taken]
  exact Nat.min_le_left _ _

/-- A callback combines the results taken, the oldest first, on top of what it leaves. -/
theorem visit_eq (r : Reduction α ε) (e : Expr) (stack : List α) :
    r.visitor.visit e stack =
      match r.combine e.label (taken e stack).reverse with
      | .ok result => (.ok (), result :: base e stack)
      | .error error => (.error error, base e stack) := by
  have htaken : stack.take e.label.childCount = taken e stack := by
    rw [taken_eq_take, e.length_children]
  have hbase : stack.drop e.label.childCount = base e stack := by
    rw [base_eq_drop, e.length_children]
  cases hcombine : r.combine e.label (taken e stack).reverse <;>
  · rw [visit_visitor, act, htaken, hbase, hcombine]

/-- A callback fails because its node cannot be combined from what is taken. -/
theorem visit_eq_error_iff {r : Reduction α ε} {e : Expr} {stack : List α} {error : ε} :
    (r.visitor.visit e stack).1 = .error error ↔
      r.combine e.label (taken e stack).reverse = .error error := by
  rw [visit_eq]
  cases r.combine e.label (taken e stack).reverse <;> simp

/-- A callback that does not fail replaces what its node takes by one result. -/
theorem length_visit {r : Reduction α ε} {e : Expr} {stack next : List α}
    (h : r.visitor.visit e stack = (.ok (), next)) :
    next.length = stack.length - e.children.length + 1 := by
  rw [visit_eq] at h
  cases hcombine : r.combine e.label (taken e stack).reverse with
  | error error =>
      rw [hcombine] at h
      cases h
  | ok result =>
      rw [hcombine] at h
      cases h
      rw [List.length_cons, base_eq_drop, List.length_drop]

/-- A callback that finds what it takes among the results on top does not touch those
below. -/
theorem visit_append (r : Reduction α ε) {e : Expr} {own : List α}
    (h : e.children.length ≤ own.length) (below : List α) :
    r.visitor.visit e (own ++ below) =
      ((r.visitor.visit e own).1, (r.visitor.visit e own).2 ++ below) := by
  have htaken : taken e (own ++ below) = taken e own := by
    rw [taken_eq_take, taken_eq_take, List.take_append_of_le_length h]
  have hbase : base e (own ++ below) = base e own ++ below := by
    rw [base_eq_drop, base_eq_drop, List.drop_append_of_le_length h]
  rw [visit_eq, visit_eq, htaken, hbase]
  cases r.combine e.label (taken e own).reverse <;> rfl

end ConstraintExpr.Reduction
