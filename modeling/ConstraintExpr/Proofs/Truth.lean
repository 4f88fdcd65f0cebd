import ConstraintExpr.Proofs.Equivalence

/-!
# Truth values

A Boolean operator sees of its operands which of them are zero, and gives one or
zero. So it works on truth values (`BoolOp.truth`), and a node with a Boolean
operator is evaluated by the truth values of its operands, from left to right
(`evaluate_logic`, `satisfies_logic`). A comparison gives a truth value, too
(`evaluate_rel`, `satisfies_rel`).
-/

namespace ConstraintExpr

open Integer (truthy ofBool)

/-! ### Operators on truth values -/

/-- What a Boolean operator makes of truth values. -/
def BoolOp.truth : BoolOp → List Bool → Bool
  | .not, [t] => !t
  | .imp, [s, t] => !s || t
  | .and, ts => ts.all id
  | .or, ts => ts.any id
  | .xor, ts => ts.count true % 2 == 1
  | .iff, ts => ts.all id || !ts.any id
  | .not, _ | .imp, _ => false

/-- All are true or none is: that is, all are like the first. -/
theorem BoolOp.truth_iff_cons (t : Bool) (ts : List Bool) :
    truth .iff (t :: ts) = ts.all (· == t) := by
  cases t with
  | true => simp [truth, Function.id_def]
  | false => simp [truth, List.all_eq_not_any_not, Function.id_def]

theorem BoolOp.not_truth_and (ts : List Bool) :
    (!truth .and ts) = truth .or (ts.map Bool.not) := by
  simp [truth, List.not_all_eq_any_not, List.any_map]

theorem BoolOp.not_truth_or (ts : List Bool) :
    (!truth .or ts) = truth .and (ts.map Bool.not) := by
  simp [truth, List.not_any_eq_all_not, List.all_map]

/-- One true operand more makes an even number of them odd. -/
theorem BoolOp.not_truth_xor (ts : List Bool) : (!truth .xor ts) = truth .xor (ts ++ [true]) := by
  have hcount : (ts ++ [true]).count true = ts.count true + 1 := by simp
  rw [truth, truth, hcount, Bool.eq_iff_iff, Bool.not_eq_true', beq_eq_false_iff_ne, beq_iff_eq]
  omega

/-- A Boolean operator looks at the truth values of its operands only. -/
theorem BoolOp.apply_eq {op : BoolOp} {xs : List Int} (h : op.arity.accepts xs.length) :
    op.apply xs = .ok (ofBool (op.truth (xs.map truthy))) := by
  have hfits := Arity.fits_of_accepts h
  cases op with
  | not =>
      obtain ⟨x, rfl⟩ := hfits
      rfl
  | imp =>
      obtain ⟨x, y, rfl⟩ := hfits
      rfl
  | and =>
      obtain ⟨x, rest, rfl⟩ := hfits
      rw [truth, List.all_map]
      rfl
  | or =>
      obtain ⟨x, rest, rfl⟩ := hfits
      rw [truth, List.any_map]
      rfl
  | xor =>
      obtain ⟨x, rest, rfl⟩ := hfits
      -- the parity is taken of the nonzero operands, not of the true ones
      have hcount : ((x :: rest).map truthy).count true = (x :: rest).countP truthy := by
        rw [List.count, List.countP_map]
        exact List.countP_congr fun _ _ => by simp
      rw [truth, hcount]
      rfl
  | iff =>
      obtain ⟨x, rest, rfl⟩ := hfits
      -- each operand is compared with the first one
      rw [List.map_cons, truth_iff_cons, List.all_map]
      rfl

/-! ### Nodes with a Boolean operator -/

variable (assignment : Assignment)

/-- The truth values of trees are those of their values. -/
theorem mapM_satisfies (es : List Expr) :
    es.mapM (satisfies assignment) = (es.mapM (evaluate assignment)).map (List.map truthy) :=
  mapM_eq_map fun _ _ => rfl

/-- The operands are evaluated from left to right, up to the first that fails,
and the operator is applied to their truth values. -/
theorem evaluate_eq_map_truth {e : Expr} {op : BoolOp} (hop : e.operator? = some (.logic op))
    (haccepts : op.arity.accepts e.children.length)
    (hchildren : ∀ child ∈ e.children, ¬ child.isCollection) :
    evaluate assignment e =
      (e.children.mapM (satisfies assignment)).map fun ts => ofBool (op.truth ts) := by
  rw [evaluate_eq_mapM_bind assignment hop rfl hchildren, mapM_satisfies]
  cases hxs : e.children.mapM (evaluate assignment) with
  | error error => rfl
  | ok xs =>
      rw [← length_of_mapM hxs] at haccepts
      exact BoolOp.apply_eq haccepts

theorem evaluate_logic {e : Expr} {op : BoolOp} (h : e.WellPlaced)
    (hop : e.operator? = some (.logic op)) :
    evaluate assignment e =
      (e.children.mapM (satisfies assignment)).map fun ts => ofBool (op.truth ts) :=
  evaluate_eq_map_truth assignment hop (h.accepts hop) (h.not_isCollection hop rfl)

theorem satisfies_logic {e : Expr} {op : BoolOp} (h : e.WellPlaced)
    (hop : e.operator? = some (.logic op)) :
    satisfies assignment e = (e.children.mapM (satisfies assignment)).map op.truth := by
  rw [satisfies, evaluate_logic assignment h hop]
  cases e.children.mapM (satisfies assignment) with
  | error error => rfl
  | ok ts => exact congrArg Except.ok (Integer.truthy_ofBool _)

theorem evaluate_nary_logic {op : BoolOp} {operands : List Expr}
    (h : (Expr.nary (.logic op) operands).WellPlaced) :
    evaluate assignment (.nary (.logic op) operands) =
      (operands.mapM (satisfies assignment)).map fun ts => ofBool (op.truth ts) :=
  evaluate_logic assignment h rfl

theorem satisfies_nary_logic {op : BoolOp} {operands : List Expr}
    (h : (Expr.nary (.logic op) operands).WellPlaced) :
    satisfies assignment (.nary (.logic op) operands) =
      (operands.mapM (satisfies assignment)).map op.truth :=
  satisfies_logic assignment h rfl

/-! ### Negations -/

theorem evaluate_not {e : Expr} (h : ¬ e.isCollection) :
    evaluate assignment (.unary (.logic .not) e) =
      (satisfies assignment e).map fun t => ofBool !t := by
  rw [evaluate_logic assignment (e := .unary (.logic .not) e) ⟨rfl, h⟩ rfl, Expr.children,
    mapM_singleton]
  cases satisfies assignment e <;> rfl

theorem satisfies_not {e : Expr} (h : ¬ e.isCollection) :
    satisfies assignment (.unary (.logic .not) e) = (satisfies assignment e).map Bool.not := by
  rw [satisfies, evaluate_not assignment h]
  cases satisfies assignment e with
  | error error => rfl
  | ok t => exact congrArg Except.ok (Integer.truthy_ofBool _)

/-- Twice negated, a tree keeps its truth value. -/
theorem satisfies_not_not {e : Expr} (h : ¬ e.isCollection) :
    satisfies assignment (.unary (.logic .not) (.unary (.logic .not) e)) =
      satisfies assignment e := by
  have hnot : ¬ (Expr.unary (.logic .not) e).isCollection := Bool.false_ne_true
  rw [satisfies_not assignment hnot, satisfies_not assignment h]
  cases satisfies assignment e with
  | error error => rfl
  | ok t => exact congrArg Except.ok (Bool.not_not t)

theorem mapM_satisfies_not {es : List Expr} (h : ∀ e ∈ es, ¬ e.isCollection) :
    (es.map (.unary (.logic .not))).mapM (satisfies assignment) =
      (es.mapM (satisfies assignment)).map (List.map Bool.not) := by
  rw [List.mapM_map]
  exact mapM_eq_map fun e hmem => satisfies_not assignment (h e hmem)

/-! ### Comparisons -/

theorem evaluate_rel (op : RelOp) {left right : Expr} (hleft : ¬ left.isCollection)
    (hright : ¬ right.isCollection) :
    evaluate assignment (.binary (.rel op) left right) = do
      let x ← evaluate assignment left
      let y ← evaluate assignment right
      return ofBool (op.holds x y) := by
  rw [evaluate_binary assignment rfl hleft hright, mapM_pair]
  cases evaluate assignment left with
  | error error => rfl
  | ok x => cases evaluate assignment right <;> rfl

theorem satisfies_rel (op : RelOp) {left right : Expr} (hleft : ¬ left.isCollection)
    (hright : ¬ right.isCollection) :
    satisfies assignment (.binary (.rel op) left right) = do
      let x ← evaluate assignment left
      let y ← evaluate assignment right
      return op.holds x y := by
  rw [satisfies, evaluate_rel assignment op hleft hright]
  cases evaluate assignment left with
  | error error => rfl
  | ok x =>
      cases evaluate assignment right with
      | error error => rfl
      | ok y => exact congrArg Except.ok (Integer.truthy_ofBool _)

end ConstraintExpr
