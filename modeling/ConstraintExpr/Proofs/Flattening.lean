import ConstraintExpr.Proofs.Nodes

/-!
# Nested operators

A node among the operands of a node with the same operator can be replaced by
its own operands, for sums, products, least and greatest values, conjunctions,
disjunctions and parities (`evaluate_flatten`). The result is the same, and
so is the failure that is reported: the operands keep their order, and the inner
operator does not fail by itself (`Operator.Flattens`).
-/

namespace ConstraintExpr

open Integer (truthy ofBool)

/-- The operators on any number of operands, apart from the one that compares the
truth values of its operands. -/
def Operator.nestable : List Operator :=
  [.arith .add, .arith .mul, .arith .min, .arith .max, .logic .and, .logic .or, .logic .xor]

/-- Applied to one value or more, the operator gives a value that can stand for
them among others. -/
def Operator.Flattens (op : Operator) : Prop :=
  ∀ ys : List Int, ys ≠ [] →
    ∃ n, op.apply ys = .ok n ∧ ∀ xs zs, op.apply (xs ++ [n] ++ zs) = op.apply (xs ++ ys ++ zs)

/-! ### Values among values -/

namespace Operator

/-- An associative operation goes through its operands from left to right. -/
theorem flattens_of_foldl {op : Operator} (f : Int → Int → Int) [Std.Associative f]
    (happly : ∀ x xs, op.apply (x :: xs) = .ok (xs.foldl f x)) : op.Flattens := by
  intro ys hne
  obtain ⟨y, ys, rfl⟩ := List.exists_cons_of_ne_nil hne
  refine ⟨ys.foldl f y, happly y ys, fun xs zs => ?_⟩
  cases xs with
  | nil =>
      show op.apply (ys.foldl f y :: zs) = op.apply (y :: (ys ++ zs))
      rw [happly, happly, List.foldl_append]
  | cons x xs =>
      have hbracket : f (xs.foldl f x) (ys.foldl f y) = ys.foldl f (f (xs.foldl f x) y) :=
        List.foldl_assoc.symm
      show op.apply (x :: (xs ++ [ys.foldl f y] ++ zs)) = op.apply (x :: (xs ++ y :: ys ++ zs))
      rw [happly, happly]
      simp only [List.foldl_append, List.foldl_cons, List.foldl_nil, hbracket]

/-- A truth value of all operands can be found with the truth value of some in
their place. -/
theorem flattens_of_truth {op : Operator} (truth : List Int → Bool)
    (happly : ∀ x xs, op.apply (x :: xs) = .ok (ofBool (truth (x :: xs))))
    (htruth : ∀ xs ys zs, truth (xs ++ [ofBool (truth ys)] ++ zs) = truth (xs ++ ys ++ zs)) :
    op.Flattens := by
  have hok : ∀ xs, xs ≠ [] → op.apply xs = .ok (ofBool (truth xs)) := by
    intro xs hne
    obtain ⟨x, xs, rfl⟩ := List.exists_cons_of_ne_nil hne
    exact happly x xs
  intro ys hne
  refine ⟨ofBool (truth ys), hok ys hne, fun xs zs => ?_⟩
  rw [hok _ (by simp), hok _ (by simp [hne]), htruth]

theorem flattens_and : (Operator.logic .and).Flattens :=
  flattens_of_truth (fun xs => xs.all truthy) (fun _ _ => rfl) fun xs ys zs => by simp

theorem flattens_or : (Operator.logic .or).Flattens :=
  flattens_of_truth (fun xs => xs.any truthy) (fun _ _ => rfl) fun xs ys zs => by simp

/-- A parity counts for one when it is odd. -/
theorem flattens_xor : (Operator.logic .xor).Flattens := by
  refine flattens_of_truth (fun xs => xs.countP truthy % 2 == 1) (fun _ _ => rfl) ?_
  intro xs ys zs
  have hone : [ofBool (ys.countP truthy % 2 == 1)].countP truthy = ys.countP truthy % 2 := by
    rw [List.countP_singleton, Integer.truthy_ofBool]
    rcases Nat.mod_two_eq_zero_or_one (ys.countP truthy) with h | h
    · rw [h]
      rfl
    · rw [h]
      rfl
  rw [Bool.eq_iff_iff, beq_iff_eq, beq_iff_eq]
  simp only [List.countP_append, hone]
  omega

theorem flattens_of_mem_nestable {op : Operator} (hop : op ∈ nestable) : op.Flattens := by
  simp only [nestable, List.mem_cons, List.not_mem_nil, or_false] at hop
  rcases hop with rfl | rfl | rfl | rfl | rfl | rfl | rfl
  · exact flattens_of_foldl (· + ·) fun _ _ => rfl
  · exact flattens_of_foldl (· * ·) fun _ _ => rfl
  · exact flattens_of_foldl Min.min fun _ _ => rfl
  · exact flattens_of_foldl Max.max fun _ _ => rfl
  · exact flattens_and
  · exact flattens_or
  · exact flattens_xor

end Operator

/-! ### Operands among operands -/

/-- Where the computations in the place of `a` succeed, so does `a`, and its
result stands for theirs. Where they fail, `a` fails as they do. -/
theorem mapM_bind_bracket {α β ε : Type} {f : α → Except ε β} {g : List β → Except ε β} {a : α}
    {before inner after : List α} (ha : f a = inner.mapM f >>= g)
    (hg : ∀ ys, inner.mapM f = .ok ys →
      ∃ b, g ys = .ok b ∧ ∀ xs zs, g (xs ++ [b] ++ zs) = g (xs ++ ys ++ zs)) :
    (before ++ [a] ++ after).mapM f >>= g = (before ++ inner ++ after).mapM f >>= g := by
  simp only [List.mapM_append, List.mapM_cons, List.mapM_nil, bind_assoc, pure_bind, ha]
  cases before.mapM f with
  | error error => rfl
  | ok xs =>
      cases hinner : inner.mapM f with
      | error error => rfl
      | ok ys =>
          -- `a` does not fail here, so that a failure after it is the first one on both sides
          obtain ⟨b, hb, hbracket⟩ := hg ys hinner
          cases after.mapM f with
          | error error => simp only [ok_bind, error_bind, hb]
          | ok zs => simp only [ok_bind, hb, hbracket]

/-- A node among the operands of a node with the same operator can make room for
its own operands. -/
theorem evaluate_flatten {op : Operator} (hop : op ∈ Operator.nestable)
    {before inner after : List Expr} (hne : inner ≠ [])
    (hkinds : ∀ e ∈ before ++ inner ++ after, ¬ e.isCollection) (assignment : Assignment) :
    evaluate assignment (.nary op (before ++ [.nary op inner] ++ after)) =
      evaluate assignment (.nary op (before ++ inner ++ after)) := by
  have hvalue : op.isSetBelonging = false := by
    revert op
    decide
  have hinner : ∀ e ∈ inner, ¬ e.isCollection := fun e hmem => hkinds e (by simp [hmem])
  have hnested : ∀ e ∈ before ++ [.nary op inner] ++ after, ¬ e.isCollection := by
    intro e hmem
    simp only [List.mem_append, List.mem_singleton] at hmem
    rcases hmem with (hmem | rfl) | hmem
    · exact hkinds e (by simp [hmem])
    · exact Bool.false_ne_true
    · exact hkinds e (by simp [hmem])
  rw [evaluate_nary assignment hvalue hnested, evaluate_nary assignment hvalue hkinds]
  refine mapM_bind_bracket (evaluate_nary assignment hvalue hinner) fun ys hys => ?_
  have hlength : ys.length = inner.length := length_of_mapM hys
  refine Operator.flattens_of_mem_nestable hop ys ?_
  rintro rfl
  exact hne (List.length_eq_zero_iff.mp hlength.symm)

/-- A parity within a parity. -/
theorem evaluate_flatten_parity :
    Operator.logic .xor ∈ Operator.nestable ∧ [Expr.constant 5, .var "y"] ≠ [] ∧
      (∀ e ∈ [Expr.var "x", .constant 5, .var "y", .constant 0], ¬ e.isCollection) ∧
      evaluate (fun id => if id = "x" then some 1 else some 3)
        (.nary (.logic .xor)
          [.var "x", .nary (.logic .xor) [.constant 5, .var "y"], .constant 0]) = .ok 1 := by
  have hop : Operator.logic .xor ∈ Operator.nestable := by decide
  have hne : [Expr.constant 5, .var "y"] ≠ [] := List.cons_ne_nil _ _
  have hkinds : ∀ e ∈ [Expr.var "x"] ++ [.constant 5, .var "y"] ++ [.constant 0],
      ¬ e.isCollection := by decide
  refine ⟨hop, hne, hkinds, (evaluate_flatten hop hne hkinds _).trans ?_⟩
  rw [evaluate_eq_bind]
  rfl

end ConstraintExpr
