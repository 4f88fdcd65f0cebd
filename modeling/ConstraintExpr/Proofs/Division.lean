import ConstraintExpr.Proofs.Equivalence
import ConstraintExpr.Proofs.Library
import ConstraintExpr.Proofs.Reachability

/-!
# Division

The quotient of two values is cut off toward zero, and the remainder is what is
missing from the dividend (`Integer.Truncated`). A zero divisor is a failure of the
node, and is found before any integer is divided.

* `ArithOp.apply_div` and `ArithOp.apply_mod`: what the operators compute;
* `Eval.combine_ne_fault` and `Eval.walk_ne_fault`: no callback of the evaluator
  divides by zero, whatever it finds on the stack, and so no walk does.
-/

namespace ConstraintExpr

/-! ### Dividing values -/

theorem ArithOp.apply_div (x y : Int) :
    ArithOp.div.apply [x, y] =
      if y = 0 then .error .divisionByZero else .ok (x.tdiv y) := by
  rw [ArithOp.apply]
  by_cases hy : y = 0
  · rw [if_pos hy, if_pos hy]
  · rw [if_neg hy, if_neg hy, Integer.quotient_of_ne_zero hy]
    rfl

theorem ArithOp.apply_mod (x y : Int) :
    ArithOp.mod.apply [x, y] =
      if y = 0 then .error .divisionByZero else .ok (x.tmod y) := by
  rw [ArithOp.apply]
  by_cases hy : y = 0
  · rw [if_pos hy, if_pos hy]
  · rw [if_neg hy, if_neg hy, Integer.remainder_of_ne_zero hy]
    rfl

/-! ### No integer is divided by zero -/

namespace Eval

variable {assignment : Assignment}

theorem power_ne_fault (base exponent : Int) (fault : Integer.Fault) :
    power base exponent ≠ .error (.integer fault) :=
  fun h => power_failure h

theorem combine_ne_fault (label : Label) (operands : List Operand) (fault : Integer.Fault) :
    combine assignment label operands ≠ .error (.integer fault) := by
  intro h
  rcases combine_error h with h | ⟨_, _, _, h⟩
  · exact h
  · cases h

theorem visit_ne_fault (e : Expr) (stack : List Operand) (fault : Integer.Fault) :
    ((visitor assignment).visit e stack).1 ≠ .error (.integer fault) := by
  intro h
  rw [visitor_eq_reduction] at h
  exact combine_ne_fault _ _ fault (Reduction.visit_eq_error_iff.mp h)

/-- What no callback does, no walk does. -/
theorem walk_ne_fault (limit : Option Nat) (e : Expr) (stack : List Operand)
    (fault : Integer.Fault) :
    ((visitor assignment).walk limit e stack).1 ≠ .error (.integer fault) := by
  intro h
  rw [visitor_eq_reduction] at h
  rcases Reduction.combine_of_walk_error (Prod.ext h rfl) with ⟨label, taken, h⟩ | ⟨_, _, h⟩
  · exact combine_ne_fault label taken fault h
  · cases h

theorem evaluateWithin_ne_fault (limit : Option Nat) (e : Expr) (fault : Integer.Fault) :
    (evaluateWithin limit assignment e).1 ≠ .error (.integer fault) := by
  intro h
  rw [evaluateWithin] at h
  cases hwalk : (visitor assignment).walk limit e [] with
  | mk result stack =>
      rw [hwalk] at h
      cases result with
      | error error =>
          cases h
          exact walk_ne_fault limit e [] fault (congrArg Prod.fst hwalk)
      | ok =>
          cases stack with
          | nil => cases h
          | cons operand stack =>
              obtain ⟨_, _, h⟩ := Operand.toValue_failure h
              cases h

end Eval

/-- Values divide with a quotient that is cut off toward zero, unless the divisor is
zero, which is a failure of the node. Nothing that the evaluator does divides an
integer by zero. -/
theorem division_and_remainder :
    (∀ (assignment : Assignment) (a b : Expr) (x y : Int),
      evaluate assignment a = .ok x → evaluate assignment b = .ok y →
        ∃ quotient remainder,
          (Build.div a b).result = .ok quotient ∧ (Build.mod a b).result = .ok remainder ∧
            (y = 0 →
              evaluate assignment quotient = .error .divisionByZero ∧
                evaluate assignment remainder = .error .divisionByZero) ∧
            (y ≠ 0 →
              ∃ q r, evaluate assignment quotient = .ok q ∧ evaluate assignment remainder = .ok r ∧
                Integer.Truncated x y q r)) ∧
    ∀ fault : Integer.Fault,
      (∀ base exponent, Eval.power base exponent ≠ .error (.integer fault)) ∧
        ∀ assignment : Assignment,
          (∀ e stack, ((Eval.visitor assignment).visit e stack).1 ≠ .error (.integer fault)) ∧
            (∀ limit e stack,
              ((Eval.visitor assignment).walk limit e stack).1 ≠ .error (.integer fault)) ∧
            ∀ limit e, (Eval.evaluateWithin limit assignment e).1 ≠ .error (.integer fault) := by
  refine ⟨fun assignment a b x y hx hy => ?_, fun fault =>
    ⟨fun base exponent => Eval.power_ne_fault base exponent fault, fun assignment =>
      ⟨fun e stack => Eval.visit_ne_fault e stack fault, fun limit e stack =>
        Eval.walk_ne_fault limit e stack fault, fun limit e =>
          Eval.evaluateWithin_ne_fault limit e fault⟩⟩⟩
  have hmakes : ∀ op : ArithOp, op.arity = .binary →
      (Build.binary (.arith op) a b).Makes (.binary (.arith op) a b) := fun op harity =>
    Build.makes_binary (Expr.wellPlaced_binary harity rfl (not_isCollection_of_evaluate hx)
      (not_isCollection_of_evaluate hy))
  have hquotient : evaluate assignment (.binary (.arith .div) a b) = _ :=
    (evaluate_binary_of_ok rfl hx hy).trans (ArithOp.apply_div x y)
  have hremainder : evaluate assignment (.binary (.arith .mod) a b) = _ :=
    (evaluate_binary_of_ok rfl hx hy).trans (ArithOp.apply_mod x y)
  refine ⟨_, _, (hmakes .div rfl).result_eq, (hmakes .mod rfl).result_eq, fun hzero => ?_,
    fun hne => ?_⟩
  · rw [if_pos hzero] at hquotient hremainder
    exact ⟨hquotient, hremainder⟩
  · rw [if_neg hne] at hquotient hremainder
    exact ⟨_, _, hquotient, hremainder, Integer.truncated_tdiv_tmod x hne⟩

/-- Both the quotient and the remainder of minus seven and two are negative. -/
theorem division_and_remainder_minus_seven :
    evaluate (fun _ => some 2) (.constant (-7)) = .ok (-7) ∧
      evaluate (fun _ => some 2) (.var "y") = .ok 2 ∧
      evaluate (fun _ => some 2) (.binary (.arith .div) (.constant (-7)) (.var "y")) = .ok (-3) ∧
      evaluate (fun _ => some 2) (.binary (.arith .mod) (.constant (-7)) (.var "y")) = .ok (-1) := by
  have hx : evaluate (fun _ => some 2) (.constant (-7)) = .ok (-7) := evaluate_constant _ (-7)
  have hy : evaluate (fun _ => some 2) (.var "y") = .ok 2 := by
    rw [evaluate_eq_bind]
    rfl
  obtain ⟨_, _, hquotient, hremainder, _, hne⟩ := division_and_remainder.1 _ _ _ _ _ hx hy
  obtain ⟨q, r, hq, hr, htruncated⟩ := hne (by decide)
  obtain ⟨rfl, rfl⟩ := htruncated.eq_tdiv_tmod
  cases hquotient
  cases hremainder
  exact ⟨hx, hy, hq, hr⟩

end ConstraintExpr
