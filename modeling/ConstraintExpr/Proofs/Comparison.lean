import ConstraintExpr.Proofs.Truth

/-!
# Turning comparisons round

A comparison is decided by the outcome of comparing its operands. Exchanged
operands have the reversed outcome, for which the reversed operator answers the
same (`RelOp.holds_reverse`), and the negated operator answers the opposite of
every outcome (`RelOp.holds_negate`).

So a comparison of trees can be negated by its operator, which keeps the failures,
and it can be turned round, which keeps the values only: the operand that is
evaluated first is another one (`comparison_rewriting`).
-/

namespace ConstraintExpr

open Integer (ofBool)
open ConstraintExpr.Expr

/-! ### Ordered types -/

namespace RelOp

theorem admits_negate (op : RelOp) (outcome : Ordering) :
    op.negate.admits outcome = !op.admits outcome := by
  cases op <;> cases outcome <;> rfl

theorem admits_reverse (op : RelOp) (outcome : Ordering) :
    op.reverse.admits outcome.swap = op.admits outcome := by
  cases op <;> cases outcome <;> rfl

variable {α : Type} [Ord α]

theorem holds_negate (op : RelOp) (x y : α) : op.negate.holds x y = !op.holds x y :=
  op.admits_negate (compare x y)

/-- It is enough that the order looks the same from both sides. -/
theorem holds_reverse [Std.OrientedOrd α] (op : RelOp) (x y : α) :
    op.reverse.holds y x = op.holds x y := by
  unfold holds
  rw [Std.OrientedOrd.eq_swap (a := y)]
  exact op.admits_reverse (compare x y)

end RelOp

/-! ### Trees -/

section

variable (op : RelOp) {a b : Expr} (ha : ¬ a.isCollection) (hb : ¬ b.isCollection)

include ha hb

theorem evaluatesAs_negate :
    EvaluatesAs (.binary (.rel op.negate) a b)
      (.unary (.logic .not) (.binary (.rel op) a b)) := by
  intro assignment
  rw [evaluate_not assignment (not_isCollection_binary _ _ _), satisfies_rel assignment op ha hb,
    evaluate_rel assignment op.negate ha hb]
  cases evaluate assignment a with
  | error error => rfl
  | ok x =>
      cases evaluate assignment b with
      | error error => rfl
      | ok y => exact congrArg (fun t => Except.ok (ofBool t)) (op.holds_negate x y)

theorem sameValues_reverse :
    SameValues (.binary (.rel op.reverse) b a) (.binary (.rel op) a b) := by
  intro assignment n
  rw [evaluate_rel assignment op.reverse hb ha, evaluate_rel assignment op ha hb]
  cases evaluate assignment a with
  -- without a value of `a` neither comparison has one, whichever failure it reports
  | error error => cases evaluate assignment b <;> simp
  | ok x =>
      cases evaluate assignment b with
      | error error => exact Iff.rfl
      | ok y => simp only [ok_bind, op.holds_reverse x y]

end

/-- A comparison can be turned round with the reversed operator, and negated with
the negated one. -/
theorem comparison_rewriting {a b : Expr} (ha : ¬ a.isCollection) (hb : ¬ b.isCollection) :
    (∀ (α : Type) [LinearOrder α] (op : RelOp) (x y : α),
      op.holds x y = op.reverse.holds y x ∧ op.holds x y = !op.negate.holds x y) ∧
    ∀ op : RelOp,
      Build.Agree EvaluatesAs (Build.binary (.rel op.negate) a b)
        (do Build.not (← Build.binary (.rel op) a b)) ∧
      Build.Agree SameValues (Build.binary (.rel op.reverse) b a)
        (Build.binary (.rel op) a b) := by
  refine ⟨fun α _ op x y => ⟨(op.holds_reverse x y).symm, ?_⟩, fun op => ⟨?_, ?_⟩⟩
  · rw [op.holds_negate x y, Bool.not_not]
  · exact (Build.makes_rel op.negate ha hb).agree
      ((Build.makes_rel op ha hb).bind (Build.makes_not (not_isCollection_binary _ _ _)))
      (evaluatesAs_negate op ha hb)
  · exact (Build.makes_rel op.reverse hb ha).agree (Build.makes_rel op ha hb)
      (sameValues_reverse op ha hb)

/-- Turned round, three is greater than two. -/
theorem comparison_rewriting_lt :
    ¬ (Expr.constant 2).isCollection ∧ ¬ (Expr.var "x").isCollection ∧
      evaluate (fun _ => some 3) (.binary (.rel .gt) (.var "x") (.constant 2)) = .ok 1 ∧
      evaluate (fun _ => some 3) (.binary (.rel .ge) (.constant 2) (.var "x")) = .ok 0 := by
  have htwo : ¬ (Expr.constant 2).isCollection := by decide
  have hx : ¬ (Expr.var "x").isCollection := by decide
  obtain ⟨hnegate, hreverse⟩ := (comparison_rewriting htwo hx).2 .lt
  refine ⟨htwo, hx, (hreverse.related rfl rfl _ _).mpr ?_, (hnegate.related rfl rfl _).trans ?_⟩
  · rw [evaluate_eq_bind]
    rfl
  · rw [evaluate_eq_bind]
    rfl

end ConstraintExpr
