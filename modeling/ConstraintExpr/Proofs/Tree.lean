import ConstraintExpr.Expr.Basic

/-!
# Trees by their children

Every kind of node is handled at once by its list of children. A child is
smaller than its parent (`Expr.size_lt_of_mem_children`), so that what a node
inherits from its children holds of every tree (`Expr.childInduction`).

`Expr.identifiers` lists the identifiers of the variables of a tree.
-/

namespace ConstraintExpr.Expr

theorem size_le_totalSize {e : Expr} {es : List Expr} (he : e ∈ es) : e.size ≤ totalSize es := by
  induction es with
  | nil => exact absurd he List.not_mem_nil
  | cons first rest ih =>
      unfold totalSize
      rcases List.mem_cons.mp he with h | h
      · subst h
        omega
      · have := ih h
        omega

theorem size_lt_of_mem_children {e child : Expr} (hchild : child ∈ e.children) :
    child.size < e.size := by
  have := size_le_totalSize hchild
  rw [size_eq e]
  omega

/-- What holds of a tree whenever it holds of the children of its root holds of
every tree. -/
@[elab_as_elim]
theorem childInduction {motive : Expr → Prop}
    (step : ∀ e, (∀ child ∈ e.children, motive child) → motive e) (e : Expr) : motive e := by
  induction hsize : e.size using Nat.strongRecOn generalizing e with
  | ind n ih =>
      subst hsize
      exact step e fun child hchild => ih child.size (size_lt_of_mem_children hchild) child rfl

/-- The identifiers of the variables from left to right, each as often as it
occurs. -/
def identifiers (e : Expr) : List String :=
  e.fold fun e inner =>
    match e with
    | .var id => [id]
    | _ => inner.flatten

theorem identifiers_eq_flatMap {e : Expr} (h : ∀ id, e ≠ .var id) :
    e.identifiers = e.children.flatMap identifiers := by
  rw [identifiers, fold_eq]
  cases e with
  | var id => exact absurd rfl (h id)
  | _ => rfl

theorem ne_var_of_mem_children {e child : Expr} (hchild : child ∈ e.children) (id : String) :
    e ≠ .var id := by
  rintro rfl
  exact List.not_mem_nil hchild

theorem identifiers_subset {e child : Expr} (hchild : child ∈ e.children) :
    child.identifiers ⊆ e.identifiers := by
  intro id hid
  rw [identifiers_eq_flatMap (ne_var_of_mem_children hchild)]
  exact List.mem_flatMap_of_mem hchild hid

end ConstraintExpr.Expr
