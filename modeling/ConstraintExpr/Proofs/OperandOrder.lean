import Mathlib.Algebra.BigOperators.Group.List.Basic
import Mathlib.Data.List.Permutation
import ConstraintExpr.Proofs.Nodes

/-!
# The order of operands

An operator does not depend on the order of its operands when all nodes that
differ in that order only have the same value, or none
(`Operator.OrderIndependent`). Which of several failures is reported may well
depend on the order.

Among the arithmetic operators of more than one operand these are the ones that
are called commutative, and all Boolean operators on any number of operands are
among them (`operand_order`).
-/

namespace ConstraintExpr

/-- Nodes that differ in the order of their children have the same values, so
that the one fails when the other does. -/
def Operator.OrderIndependent (op : Operator) : Prop :=
  ∀ a b : Expr, Obtainable a → Obtainable b → a.operator? = some op → b.operator? = some op →
    a.children.Perm b.children →
    ∀ (assignment : Assignment) (n : Int),
      evaluate assignment a = .ok n ↔ evaluate assignment b = .ok n

/-! ### Values in another order -/

theorem min_eq_of_perm {xs ys : List Int} (h : xs.Perm ys) (hxs : xs ≠ []) (hys : ys ≠ []) :
    xs.min hxs = ys.min hys := by
  rw [List.min_eq_iff hxs]
  refine ⟨h.mem_iff.mpr (List.min_mem hys), fun x hx => ?_⟩
  exact List.min_le_of_mem (h.mem_iff.mp hx)

theorem max_eq_of_perm {xs ys : List Int} (h : xs.Perm ys) (hxs : xs ≠ []) (hys : ys ≠ []) :
    xs.max hxs = ys.max hys := by
  rw [List.max_eq_iff hxs]
  refine ⟨h.mem_iff.mpr (List.max_mem hys), fun x hx => ?_⟩
  exact List.le_max_of_mem (h.mem_iff.mp hx)

theorem Meaning.nary_perm {op : Operator} (harity : op.arity = .nary) {x y : Int} {xs ys : List Int}
    (h : (x :: xs).Perm (y :: ys)) : nary op (x :: xs) = nary op (y :: ys) := by
  have hmem : ∀ z, z ∈ x :: xs ↔ z ∈ y :: ys := fun z => h.mem_iff
  cases op with
  | arith op =>
      cases op <;> try contradiction
      case add => exact congrArg Except.ok h.sum_eq
      case mul => exact congrArg Except.ok h.prod_eq
      case min => exact congrArg Except.ok (min_eq_of_perm h _ _)
      case max => exact congrArg Except.ok (max_eq_of_perm h _ _)
  | logic op =>
      cases op <;> try contradiction
      case and => simp only [nary, hmem]
      case or => simp only [nary, hmem]
      case xor => simp only [nary, h.countP_eq]
      case iff => simp only [nary, hmem]
  | rel op => contradiction
  | member op => contradiction

theorem Operator.apply_perm {op : Operator} (harity : op.arity = .nary) {xs ys : List Int}
    (h : xs.Perm ys) : op.apply xs = op.apply ys := by
  cases xs with
  | nil => rw [h.nil_eq]
  | cons x xs =>
      cases ys with
      | nil => exact absurd h.eq_nil (List.cons_ne_nil x xs)
      | cons y ys => rw [apply_nary harity, apply_nary harity, Meaning.nary_perm harity h]

namespace ArithOp

theorem apply_dist_of_length_ne {xs : List Int} (h : xs.length ≠ 2) :
    dist.apply xs = .error (.invalidArity (.arith .dist) xs.length) :=
  match xs with
  | [] | [_] | _ :: _ :: _ :: _ => rfl
  | [_, _] => absurd rfl h

/-- A difference and the opposite one are the same distance. -/
theorem apply_dist_perm {xs ys : List Int} (h : xs.Perm ys) : dist.apply xs = dist.apply ys := by
  by_cases hlength : xs.length = 2
  · obtain ⟨x, y, rfl⟩ := List.length_eq_two.mp hlength
    rcases List.pair_perm.mp h with rfl | rfl
    · rfl
    · have habs : Integer.abs (x - y) = Integer.abs (y - x) := by
        rw [Integer.abs, Integer.abs, ← Int.natAbs_neg, Int.neg_sub]
      exact congrArg Except.ok habs
  · rw [apply_dist_of_length_ne hlength, h.length_eq,
      apply_dist_of_length_ne (h.length_eq ▸ hlength)]

theorem apply_perm {op : ArithOp} (hcommutative : op.isCommutative = true) {xs ys : List Int}
    (h : xs.Perm ys) : op.apply xs = op.apply ys := by
  cases op <;> try contradiction
  case dist => exact apply_dist_perm h
  all_goals exact @Operator.apply_perm (.arith _) rfl _ _ h

/-- Of two and one, the other operators can tell which comes first. -/
theorem exists_apply_swap_ne {op : ArithOp} (harity : op.arity ≠ .unary)
    (hcommutative : op.isCommutative = false) :
    op.arity = .binary ∧ ∃ n, op.apply [2, 1] = .ok n ∧ op.apply [1, 2] ≠ .ok n := by
  cases op <;> try contradiction
  case sub => exact ⟨rfl, 1, rfl, by decide⟩
  case div => exact ⟨rfl, 2, rfl, by decide⟩
  case mod => exact ⟨rfl, 0, rfl, by decide⟩
  case pow => exact ⟨rfl, 2, rfl, by decide⟩

end ArithOp

/-! ### Operands in another order -/

section

variable {op : Operator} (hvalue : op.isSetBelonging = false)
  (happly : ∀ {xs ys : List Int}, xs.Perm ys → op.apply xs = op.apply ys)

include hvalue happly

/-- The operator is applied to the values of the operands, and these come in the
order of the operands. -/
theorem evaluate_eq_ok_of_perm {a b : Expr} (ha : Obtainable a) (hb : Obtainable b)
    (hopa : a.operator? = some op) (hopb : b.operator? = some op)
    (hperm : a.children.Perm b.children) {assignment : Assignment} {n : Int}
    (h : evaluate assignment a = .ok n) : evaluate assignment b = .ok n := by
  have hkinda := (obtainable_iff.mp ha).wellPlaced.not_isCollection hopa hvalue
  have hkindb := (obtainable_iff.mp hb).wellPlaced.not_isCollection hopb hvalue
  rw [evaluate_eq_mapM_bind assignment hopa hvalue hkinda] at h
  obtain ⟨xs, hxs, h⟩ := bind_eq_ok_iff.mp h
  obtain ⟨ys, hys, hvalues⟩ := mapM_perm hperm hxs
  rw [evaluate_eq_mapM_bind assignment hopb hvalue hkindb, hys, ok_bind, ← happly hvalues]
  exact h

theorem Operator.orderIndependent_of_apply_perm : op.OrderIndependent := by
  intro a b ha hb hopa hopb hperm assignment n
  constructor
  · exact evaluate_eq_ok_of_perm hvalue happly ha hb hopa hopb hperm
  · exact evaluate_eq_ok_of_perm hvalue happly hb ha hopb hopa hperm.symm

end

theorem evaluate_binary_constant (assignment : Assignment) {op : Operator}
    (hvalue : op.isSetBelonging = false) (x y : Int) :
    evaluate assignment (.binary op (.constant x) (.constant y)) = op.apply [x, y] :=
  evaluate_binary_of_ok hvalue (evaluate_constant assignment x) (evaluate_constant assignment y)

theorem obtainable_binary_constant {op : ArithOp} (harity : op.arity = .binary) (x y : Int) :
    Obtainable (.binary (.arith op) (.constant x) (.constant y)) := by
  have hleaf : ∀ n, (Expr.constant n).WellFormed := fun n =>
    Expr.wellFormed_of_children_eq_nil trivial rfl
  have hroot : (Expr.binary (.arith op) (.constant x) (.constant y)).WellPlaced :=
    ⟨harity, Bool.false_ne_true, fun h => absurd h Bool.false_ne_true, fun ⟨_, h⟩ => nomatch h⟩
  refine obtainable_iff.mpr (.intro hroot fun child hchild => ?_)
  rcases List.mem_pair.mp hchild with rfl | rfl
  · exact hleaf x
  · exact hleaf y

theorem ArithOp.not_orderIndependent {op : ArithOp} (harity : op.arity ≠ .unary)
    (hcommutative : op.isCommutative = false) : ¬ (Operator.arith op).OrderIndependent := by
  obtain ⟨hbinary, n, hn, hswap⟩ := exists_apply_swap_ne harity hcommutative
  intro h
  have hiff := h _ _ (obtainable_binary_constant hbinary 2 1) (obtainable_binary_constant hbinary 1 2)
    rfl rfl (.swap _ _ _) (fun _ => none) n
  rw [evaluate_binary_constant _ rfl, evaluate_binary_constant _ rfl] at hiff
  exact hswap (hiff.mp hn)

/-- The arithmetic operators of more than one operand that are called commutative
are those that do not depend on the order of their operands; each of the others
has two operands to show it. No Boolean operator on any number of operands
depends on their order. -/
theorem operand_order :
    (∀ op : ArithOp, op.arity ≠ .unary →
      (op.isCommutative = true ↔ (Operator.arith op).OrderIndependent)) ∧
    (∀ op ∈ [ArithOp.sub, .div, .mod, .pow], ∃ x y n : Int, ∀ assignment : Assignment,
      evaluate assignment (.binary (.arith op) (.constant x) (.constant y)) = .ok n ∧
        evaluate assignment (.binary (.arith op) (.constant y) (.constant x)) ≠ .ok n) ∧
    ∀ op ∈ [BoolOp.and, .or, .xor, .iff], (Operator.logic op).OrderIndependent := by
  refine ⟨fun op harity => ⟨fun hcommutative => ?_, fun h => ?_⟩, fun op hop => ?_, fun op hop => ?_⟩
  · exact Operator.orderIndependent_of_apply_perm rfl (ArithOp.apply_perm hcommutative)
  · by_contra hnot
    exact ArithOp.not_orderIndependent harity (Bool.not_eq_true _ ▸ hnot) h
  · have hother : op.arity ≠ .unary ∧ op.isCommutative = false := by
      revert op
      decide
    obtain ⟨_, n, hn, hswap⟩ := ArithOp.exists_apply_swap_ne hother.1 hother.2
    refine ⟨2, 1, n, fun assignment => ?_⟩
    rw [evaluate_binary_constant assignment rfl, evaluate_binary_constant assignment rfl]
    exact ⟨hn, hswap⟩
  · have harity : (Operator.logic op).arity = .nary := by
      revert op
      decide
    exact Operator.orderIndependent_of_apply_perm rfl (Operator.apply_perm harity)

end ConstraintExpr
