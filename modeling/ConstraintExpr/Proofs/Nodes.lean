import ConstraintExpr.Proofs.Failure

/-!
# Nodes evaluate by their operands

A node with any operator but a set-belonging one evaluates to what the operator
makes of the values of its operands; the first operand without a value is the
failure of the node (`evaluate_eq_mapM_bind`). So trees with the same operator at
the root are compared by the values of their operands alone.
-/

namespace ConstraintExpr

theorem evaluate_constant (assignment : Assignment) (n : Int) :
    evaluate assignment (.constant n) = .ok n := by
  rw [evaluate_eq_bind]
  rfl

/-- The operands are evaluated from left to right, up to the first that fails,
and the operator is applied to their values. -/
theorem evaluate_eq_mapM_bind (assignment : Assignment) {e : Expr} {op : Operator}
    (hop : e.operator? = some op) (hvalue : op.isSetBelonging = false)
    (hchildren : ∀ child ∈ e.children, ¬ child.isCollection) :
    evaluate assignment e = e.children.mapM (evaluate assignment) >>= op.apply := by
  have hcombine : (Eval.reduction assignment).combine e.label = Eval.operation op :=
    Eval.combine_eq_operation hop hvalue
  rw [evaluate_eq_bind, Reduction.value_eq, hcombine,
    Eval.mapM_value_eq_map_evaluate assignment hchildren]
  cases e.children.mapM (evaluate assignment) with
  | error error => rfl
  | ok xs =>
      show Eval.operation op (xs.map .value) >>= Operand.toValue = op.apply xs
      rw [Eval.operation, Eval.toValues_map_value, ok_bind]
      cases op.apply xs <;> rfl

theorem evaluate_unary (assignment : Assignment) {op : Operator}
    (hvalue : op.isSetBelonging = false) {operand : Expr} (hoperand : ¬ operand.isCollection) :
    evaluate assignment (.unary op operand) =
      evaluate assignment operand >>= fun x => op.apply [x] := by
  rw [evaluate_eq_mapM_bind assignment (e := .unary op operand) rfl hvalue
    (List.forall_mem_singleton.mpr hoperand), Expr.children, mapM_singleton]
  cases evaluate assignment operand <;> rfl

theorem evaluate_binary (assignment : Assignment) {op : Operator}
    (hvalue : op.isSetBelonging = false) {left right : Expr} (hleft : ¬ left.isCollection)
    (hright : ¬ right.isCollection) :
    evaluate assignment (.binary op left right) =
      [left, right].mapM (evaluate assignment) >>= op.apply :=
  evaluate_eq_mapM_bind assignment (e := .binary op left right) rfl hvalue
    (List.forall_mem_cons.mpr ⟨hleft, List.forall_mem_singleton.mpr hright⟩)

/-- What has a value is neither a range nor a set. -/
theorem not_isCollection_of_evaluate {assignment : Assignment} {e : Expr} {n : Int}
    (h : evaluate assignment e = .ok n) : ¬ e.isCollection := by
  rw [evaluate_eq_bind] at h
  obtain ⟨operand, hoperand, hn⟩ := bind_eq_ok_iff.mp h
  rw [← Eval.isCollection_of_value hoperand]
  cases operand with
  | value n => exact Bool.false_ne_true
  | range lo hi => cases hn
  | set elements => cases hn

theorem evaluate_binary_of_ok {assignment : Assignment} {op : Operator}
    (hvalue : op.isSetBelonging = false) {left right : Expr} {x y : Int}
    (hx : evaluate assignment left = .ok x) (hy : evaluate assignment right = .ok y) :
    evaluate assignment (.binary op left right) = op.apply [x, y] := by
  rw [evaluate_binary assignment hvalue (not_isCollection_of_evaluate hx)
    (not_isCollection_of_evaluate hy), mapM_eq_ok_iff.mpr (.cons hx (.cons hy .nil)), ok_bind]

theorem evaluate_nary (assignment : Assignment) {op : Operator}
    (hvalue : op.isSetBelonging = false) {operands : List Expr}
    (hoperands : ∀ operand ∈ operands, ¬ operand.isCollection) :
    evaluate assignment (.nary op operands) = operands.mapM (evaluate assignment) >>= op.apply :=
  evaluate_eq_mapM_bind assignment (e := .nary op operands) rfl hvalue hoperands

theorem evaluate_nary_pair (assignment : Assignment) {op : Operator}
    (hvalue : op.isSetBelonging = false) {left right : Expr} (hleft : ¬ left.isCollection)
    (hright : ¬ right.isCollection) :
    evaluate assignment (.nary op [left, right]) =
      [left, right].mapM (evaluate assignment) >>= op.apply :=
  evaluate_nary assignment hvalue
    (List.forall_mem_cons.mpr ⟨hleft, List.forall_mem_singleton.mpr hright⟩)

end ConstraintExpr
