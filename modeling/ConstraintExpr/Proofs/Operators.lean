import ConstraintExpr.Proofs.Power

/-!
# Operators compute their meaning

Applied to as many operands as its arity asks for, an operator gives its
meaning, or fails as its meaning does: `Operator.apply_unary`,
`Operator.apply_binary` and `Operator.apply_nary`. Ranges and sets contain what
they should (`Operand.contains_range`, `Operand.contains_set`).
-/

namespace ConstraintExpr

/-! ### Truth values -/

theorem Integer.truthy_iff {n : Int} : truthy n = true ↔ n ≠ 0 := by
  simp [truthy]

theorem Integer.truthy_eq_decide : truthy = fun n : Int => decide (n ≠ 0) := by
  funext n
  rw [Bool.eq_iff_iff, truthy_iff, decide_eq_true_eq]

@[simp] theorem Integer.truthy_ofBool (b : Bool) : truthy (ofBool b) = b := by
  cases b <;> rfl

/-- The Boolean `b` decides `p`. -/
theorem Integer.ofBool_eq_indicator {b : Bool} {p : Prop} [Decidable p] (h : b = true ↔ p) :
    ofBool b = Meaning.indicator p := by
  unfold ofBool Meaning.indicator
  by_cases hp : p
  · rw [if_pos (h.mpr hp), if_pos hp]
  · rw [if_neg fun hb => hp (h.mp hb), if_neg hp]

open Integer

/-! ### Operators of fixed arity -/

theorem Operator.apply_unary {op : Operator} (harity : op.arity = .unary) (x : Int) :
    op.apply [x] = Meaning.unary op x := by
  cases op with
  | arith op =>
      cases op <;> try contradiction
      case neg => rfl
      case abs =>
        have habs : Integer.abs x = |x| := Int.natCast_natAbs x
        exact congrArg Except.ok habs
      case sqr => exact congrArg Except.ok (pow_two x).symm
  | logic op =>
      cases op <;> try contradiction
      case not => exact congrArg Except.ok (ofBool_eq_indicator (by simp [truthy]))
  | rel op => contradiction
  | member op => contradiction

/-- The outcome of a comparison is the comparison. -/
theorem RelOp.holds_iff (op : RelOp) (x y : Int) :
    op.holds x y = true ↔ Meaning.Compares op x y := by
  rcases lt_trichotomy x y with hlt | heq | hgt
  · have houtcome : compare x y = .lt := compare_lt_iff_lt.mpr hlt
    cases op <;> simp [holds, admits, Meaning.Compares, houtcome] <;> omega
  · cases op <;> simp [holds, admits, Meaning.Compares, heq]
  · have houtcome : compare x y = .gt := compare_gt_iff_gt.mpr hgt
    cases op <;> simp [holds, admits, Meaning.Compares, houtcome] <;> omega

theorem Operator.apply_binary {op : Operator} (harity : op.arity = .binary)
    (hvalue : op.isSetBelonging = false) (x y : Int) :
    op.apply [x, y] = Meaning.binary op x y := by
  cases op with
  | arith op =>
      cases op <;> try contradiction
      case sub => rfl
      case div =>
        show (if y = 0 then _ else _) = (if y = 0 then _ else _)
        by_cases hy : y = 0
        · rw [if_pos hy, if_pos hy]
        · rw [if_neg hy, if_neg hy, quotient_of_ne_zero hy]
          rfl
      case mod =>
        show (if y = 0 then _ else _) = (if y = 0 then _ else _)
        by_cases hy : y = 0
        · rw [if_pos hy, if_pos hy]
        · rw [if_neg hy, if_neg hy, remainder_of_ne_zero hy]
          rfl
      case pow => exact Eval.power_eq x y
      case dist =>
        have habs : Integer.abs (x - y) = |x - y| := Int.natCast_natAbs (x - y)
        exact congrArg Except.ok habs
  | logic op =>
      cases op <;> try contradiction
      case imp =>
        refine congrArg Except.ok (ofBool_eq_indicator ?_)
        rw [Bool.or_eq_true, Bool.not_eq_true', ← Bool.not_eq_true, truthy_iff, truthy_iff]
        exact imp_iff_not_or.symm
  | rel op => exact congrArg Except.ok (ofBool_eq_indicator (op.holds_iff x y))
  | member op => contradiction

/-! ### Operators on any number of operands -/

theorem foldl_add_eq_sum (x : Int) (xs : List Int) : xs.foldl (· + ·) x = (x :: xs).sum := by
  rw [List.sum_eq_foldl, List.foldl_cons, zero_add]

theorem foldl_mul_eq_prod (x : Int) (xs : List Int) : xs.foldl (· * ·) x = (x :: xs).prod := by
  rw [List.prod_eq_foldl, List.foldl_cons, one_mul]

/-- Being like the first operand is the same as being alike. -/
theorem all_truthy_beq_iff (x : Int) (xs : List Int) :
    (xs.all fun y => truthy y == truthy x) = true ↔
      ∀ y ∈ x :: xs, ∀ z ∈ x :: xs, y ≠ 0 ↔ z ≠ 0 := by
  have hbeq : ∀ y, (truthy y == truthy x) = true ↔ (y ≠ 0 ↔ x ≠ 0) := by
    intro y
    rw [beq_iff_eq, Bool.eq_iff_iff, truthy_iff, truthy_iff]
  rw [List.all_eq_true]
  constructor
  · intro hall
    have hfirst : ∀ y ∈ x :: xs, y ≠ 0 ↔ x ≠ 0 := by
      intro y hy
      rcases List.mem_cons.mp hy with rfl | hy
      · exact Iff.rfl
      · exact (hbeq y).mp (hall y hy)
    intro y hy z hz
    exact (hfirst y hy).trans (hfirst z hz).symm
  · intro halike y hy
    exact (hbeq y).mpr (halike y (List.mem_cons_of_mem x hy) x List.mem_cons_self)

theorem Operator.apply_nary {op : Operator} (harity : op.arity = .nary) (x : Int)
    (xs : List Int) : op.apply (x :: xs) = Meaning.nary op (x :: xs) := by
  cases op with
  | arith op =>
      cases op <;> try contradiction
      case add => exact congrArg Except.ok (foldl_add_eq_sum x xs)
      case mul => exact congrArg Except.ok (foldl_mul_eq_prod x xs)
      case min => rfl
      case max => rfl
  | logic op =>
      cases op <;> try contradiction
      case and => exact congrArg Except.ok (ofBool_eq_indicator (by simp [truthy]))
      case or => exact congrArg Except.ok (ofBool_eq_indicator (by simp [truthy]))
      case xor =>
        refine congrArg Except.ok (ofBool_eq_indicator ?_)
        rw [beq_iff_eq, Nat.odd_iff, truthy_eq_decide]
      case iff => exact congrArg Except.ok (ofBool_eq_indicator (all_truthy_beq_iff x xs))
  | rel op => contradiction
  | member op => contradiction

/-! ### Collections -/

theorem Operand.contains_range (lo hi n : Int) :
    (Operand.range lo hi).contains n = decide (lo ≤ n ∧ n ≤ hi) := by
  simp [contains, within]

theorem Operand.contains_set (xs : List Int) (n : Int) :
    (Operand.set xs).contains n = decide (n ∈ xs) :=
  List.contains_eq_mem n xs

end ConstraintExpr
