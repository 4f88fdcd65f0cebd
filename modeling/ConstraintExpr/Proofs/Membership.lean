import ConstraintExpr.Proofs.Truth

/-!
# Memberships

A membership is decided by looking into the collection, once the element and,
for a set, all its members have been evaluated (`evaluate_membership`). It is worth
what the comparisons it stands for are worth, and fails as they do
(`membership_expansion`):

* in an interval: at least the lower bound and at most the upper one;
* in a set: equal to one of the members;
* outside: not inside.

Of the members of a set only the values matter, not their order or how often they
occur (`sameValues_of_subset`).
-/

namespace ConstraintExpr

open Integer (ofBool)
open ConstraintExpr.Expr

/-! ### Looking into a collection -/

section

variable (assignment : Assignment)

/-- A set stands for the values of its members. -/
theorem value_set {elements : List Expr} (h : ∀ element ∈ elements, ¬ element.isCollection) :
    (Eval.reduction assignment).value (.set elements) =
      (elements.mapM (evaluate assignment)).map .set := by
  rw [Reduction.value_eq, Expr.children, Eval.mapM_value_eq_map_evaluate assignment h]
  cases elements.mapM (evaluate assignment) with
  | error error => rfl
  | ok xs =>
      show Operand.toValues (xs.map .value) >>= _ = _
      rw [Eval.toValues_map_value]
      rfl

/-- The element is evaluated before the collection. -/
theorem evaluate_membership (op : SetOp) {element : Expr} (helement : ¬ element.isCollection)
    (collection : Expr) :
    evaluate assignment (.binary (.member op) element collection) = do
      let n ← evaluate assignment element
      let operand ← (Eval.reduction assignment).value collection
      return ofBool (operand.contains n == (op == .belongs)) := by
  rw [evaluate_eq_bind, Reduction.value_eq, Expr.children, mapM_pair,
    Eval.value_eq_map_evaluate assignment helement]
  cases evaluate assignment element with
  | error error => rfl
  | ok n => cases (Eval.reduction assignment).value collection <;> rfl

theorem evaluate_range_membership (op : SetOp) {element : Expr} (helement : ¬ element.isCollection)
    (lo hi : Int) :
    evaluate assignment (.binary (.member op) element (.range lo hi)) =
      (evaluate assignment element).map fun n =>
        ofBool (decide (lo ≤ n ∧ n ≤ hi) == (op == .belongs)) := by
  rw [evaluate_membership assignment op helement]
  cases evaluate assignment element with
  | error error => rfl
  | ok n =>
      show Except.ok (ofBool ((Operand.range lo hi).contains n == _)) = _
      rw [Operand.contains_range]
      rfl

theorem evaluate_set_membership (op : SetOp) {element : Expr} (helement : ¬ element.isCollection)
    {elements : List Expr} (helements : ∀ member ∈ elements, ¬ member.isCollection) :
    evaluate assignment (.binary (.member op) element (.set elements)) = do
      let n ← evaluate assignment element
      let xs ← elements.mapM (evaluate assignment)
      return ofBool (decide (n ∈ xs) == (op == .belongs)) := by
  rw [evaluate_membership assignment op helement, value_set assignment helements]
  cases evaluate assignment element with
  | error error => rfl
  | ok n =>
      cases elements.mapM (evaluate assignment) with
      | error error => rfl
      | ok xs =>
          show Except.ok (ofBool ((Operand.set xs).contains n == _)) = _
          rw [Operand.contains_set]
          rfl

end

/-! ### Outside -/

/-- What is not inside is outside. -/
theorem evaluatesAs_avoids {element : Expr} (helement : ¬ element.isCollection)
    (collection : Expr) :
    EvaluatesAs (.binary (.member .avoids) element collection)
      (.unary (.logic .not) (.binary (.member .belongs) element collection)) := by
  intro assignment
  rw [evaluate_not assignment (not_isCollection_binary _ _ _), satisfies,
    evaluate_membership assignment .avoids helement,
    evaluate_membership assignment .belongs helement]
  cases evaluate assignment element with
  | error error => rfl
  | ok n =>
      cases (Eval.reduction assignment).value collection with
      | error error => rfl
      | ok operand =>
          show Except.ok (ofBool (operand.contains n == false)) =
            Except.ok (ofBool !Integer.truthy (ofBool (operand.contains n == true)))
          rw [Integer.truthy_ofBool, beq_true, beq_false]

/-! ### Inside -/

/-- The values in an interval lie between its bounds. -/
theorem evaluatesAs_inRange {e : Expr} (he : ¬ e.isCollection) (lo hi : Int) :
    EvaluatesAs (.binary (.member .belongs) e (.range lo hi))
      (.nary (.logic .and)
        [.binary (.rel .le) (.constant lo) e, .binary (.rel .le) e (.constant hi)]) := by
  have hand : (Expr.nary (.logic .and)
      [.binary (.rel .le) (.constant lo) e, .binary (.rel .le) e (.constant hi)]).WellPlaced :=
    wellPlaced_nary_pair rfl (not_isCollection_binary _ _ _) (not_isCollection_binary _ _ _)
  intro assignment
  rw [evaluate_range_membership assignment .belongs he, evaluate_nary_logic assignment hand,
    mapM_pair, satisfies_rel assignment .le (not_isCollection_constant lo) he,
    satisfies_rel assignment .le he (not_isCollection_constant hi), evaluate_constant,
    evaluate_constant]
  cases evaluate assignment e with
  | error error => rfl
  | ok n =>
      have htruth : (decide (lo ≤ n ∧ n ≤ hi) == true) =
          (RelOp.holds .le lo n && (RelOp.holds .le n hi && true)) := by
        rw [Bool.eq_iff_iff, beq_true, decide_eq_true_eq, Bool.and_true, Bool.and_eq_true,
          RelOp.holds_iff, RelOp.holds_iff]
        rfl
      exact congrArg (fun t => Except.ok (ofBool t)) htruth

theorem evaluate_inRange_of_lt {e : Expr} (he : ¬ e.isCollection) {lo hi : Int} (h : hi < lo)
    {assignment : Assignment} {n : Int} (hn : evaluate assignment e = .ok n) :
    evaluate assignment (.binary (.member .belongs) e (.range lo hi)) = .ok 0 := by
  have hnone : ¬ (lo ≤ n ∧ n ≤ hi) := fun ⟨hlo, hhi⟩ => absurd (hlo.trans hhi) (not_le.mpr h)
  rw [evaluate_range_membership assignment .belongs he, hn]
  show Except.ok (ofBool (decide (lo ≤ n ∧ n ≤ hi) == true)) = .ok (ofBool false)
  rw [decide_eq_false hnone, beq_true]

/-- The values in a set are equal to one of its members. -/
theorem evaluatesAs_inSet {e : Expr} (he : ¬ e.isCollection) {elements : List Expr}
    (hne : elements ≠ []) (helements : ∀ member ∈ elements, ¬ member.isCollection) :
    EvaluatesAs (.binary (.member .belongs) e (.set elements))
      (.nary (.logic .or) (elements.map (.binary (.rel .eq) e))) := by
  have hor : (Expr.nary (.logic .or) (elements.map (.binary (.rel .eq) e))).WellPlaced :=
    wellPlaced_nary_map rfl (not_isCollection_binary _ _) hne
  intro assignment
  rw [evaluate_set_membership assignment .belongs he helements,
    evaluate_nary_logic assignment hor, List.mapM_map]
  cases hn : evaluate assignment e with
  | error error =>
      -- the first of the comparisons fails, before any member is evaluated
      obtain ⟨member, members, rfl⟩ := List.exists_cons_of_ne_nil hne
      have hfirst : satisfies assignment (.binary (.rel .eq) e member) = .error error := by
        rw [satisfies_rel assignment .eq he (helements member List.mem_cons_self), hn]
        rfl
      have hfails : (member :: members).mapM (satisfies assignment ∘ .binary (.rel .eq) e) =
          .error error :=
        mapM_eq_error_iff.mpr
          ⟨[], member, members, rfl, fun _ hmem => absurd hmem List.not_mem_nil, hfirst⟩
      rw [hfails]
      rfl
  | ok n =>
      -- with the element known, a comparison fails where its member does
      have hcompare : ∀ member ∈ elements, (satisfies assignment ∘ .binary (.rel .eq) e) member =
          (evaluate assignment member).map fun x => RelOp.holds .eq n x := by
        intro member hmember
        rw [Function.comp_apply, satisfies_rel assignment .eq he (helements member hmember), hn]
        cases evaluate assignment member <;> rfl
      rw [mapM_eq_map hcompare]
      cases elements.mapM (evaluate assignment) with
      | error error => rfl
      | ok xs =>
          have htruth : (decide (n ∈ xs) == true) =
              (xs.map fun x => RelOp.holds .eq n x).any id := by
            rw [Bool.eq_iff_iff, beq_true, decide_eq_true_eq, List.any_map, List.any_eq_true]
            simp only [Function.comp_apply, id, RelOp.holds_iff, Meaning.Compares,
              exists_eq_right']
          exact congrArg (fun t => Except.ok (ofBool t)) htruth

/-- Nothing is in the empty set, but the element is evaluated. -/
theorem evaluatesAs_inSet_nil {e : Expr} (he : ¬ e.isCollection) :
    EvaluatesAs (.binary (.member .belongs) e (.set []))
      (.nary (.logic .and) [e, .constant 0]) := by
  have hand : (Expr.nary (.logic .and) [e, .constant 0]).WellPlaced :=
    wellPlaced_nary_pair rfl he (not_isCollection_constant 0)
  intro assignment
  rw [evaluate_set_membership assignment .belongs he (fun _ hmem => absurd hmem List.not_mem_nil),
    evaluate_nary_logic assignment hand, mapM_pair, satisfies, satisfies, evaluate_constant]
  cases evaluate assignment e with
  | error error => rfl
  | ok n =>
      show Except.ok (ofBool false) = Except.ok (ofBool (Integer.truthy n && (false && true)))
      rw [Bool.false_and, Bool.and_false]

/-! ### The members of a set -/

theorem evaluate_eq_ok_of_subset {op : SetOp} {e : Expr} (he : ¬ e.isCollection)
    {elements others : List Expr} (helements : ∀ member ∈ elements, ¬ member.isCollection)
    (hsub : others ⊆ elements) (hsup : elements ⊆ others) {assignment : Assignment} {n : Int}
    (h : evaluate assignment (.binary (.member op) e (.set elements)) = .ok n) :
    evaluate assignment (.binary (.member op) e (.set others)) = .ok n := by
  rw [evaluate_set_membership assignment op he helements] at h
  obtain ⟨m, hm, h⟩ := bind_eq_ok_iff.mp h
  obtain ⟨xs, hxs, h⟩ := bind_eq_ok_iff.mp h
  -- each list of members has its values among those of the other list
  obtain ⟨ys, hys, hsubset⟩ := mapM_subset hsub hxs
  obtain ⟨xs', hxs', hsuperset⟩ := mapM_subset hsup hys
  obtain rfl : xs' = xs := Except.ok.inj (hxs'.symm.trans hxs)
  have hmem : m ∈ ys ↔ m ∈ xs' := ⟨fun hy => hsubset hy, fun hx => hsuperset hx⟩
  rw [evaluate_set_membership assignment op he fun member hmember => helements member
    (hsub hmember), hm, ok_bind, hys, ok_bind, decide_eq_decide.mpr hmem]
  exact h

/-- Sets with the same members, in any order and any number of times, have the same
elements. Which of several failures is reported may depend on the order. -/
theorem sameValues_of_subset (op : SetOp) {e : Expr} (he : ¬ e.isCollection)
    {elements others : List Expr} (helements : ∀ member ∈ elements, ¬ member.isCollection)
    (hsub : others ⊆ elements) (hsup : elements ⊆ others) :
    SameValues (.binary (.member op) e (.set others)) (.binary (.member op) e (.set elements)) := by
  have hothers : ∀ member ∈ others, ¬ member.isCollection := fun member hmember =>
    helements member (hsub hmember)
  intro assignment n
  exact ⟨evaluate_eq_ok_of_subset he hothers hsup hsub,
    evaluate_eq_ok_of_subset he helements hsub hsup⟩

/-- A membership evaluates as the comparisons that it stands for. -/
theorem membership_expansion {e : Expr} (he : ¬ e.isCollection) {elements : List Expr}
    (helements : ∀ member ∈ elements, ¬ member.isCollection) :
    (∀ lo hi : Int,
      Build.Agree EvaluatesAs (Build.inRange e lo hi)
        (do Build.and [← Build.le (.constant lo) e, ← Build.le e (.constant hi)]) ∧
      Build.Agree EvaluatesAs (Build.notInRange e lo hi)
        (do Build.not (← Build.inRange e lo hi)) ∧
      (hi < lo → ∃ tree, (Build.inRange e lo hi).result = .ok tree ∧
        ∀ (assignment : Assignment) (n : Int), evaluate assignment e = .ok n →
          evaluate assignment tree = .ok 0)) ∧
    (elements ≠ [] → Build.Agree EvaluatesAs (Build.inSet e elements)
      (do Build.or (← elements.mapM (Build.eq e)))) ∧
    Build.Agree EvaluatesAs (Build.inSet e []) (Build.and [e, .constant 0]) ∧
    Build.Agree EvaluatesAs (Build.notInSet e elements)
      (do Build.not (← Build.inSet e elements)) ∧
    ∀ others, others ⊆ elements → elements ⊆ others →
      Build.Agree SameValues (Build.inSet e others) (Build.inSet e elements) ∧
        Build.Agree SameValues (Build.notInSet e others) (Build.notInSet e elements) := by
  have hrange : ∀ (op : SetOp) (lo hi : Int), (Build.binary (.member op) e (.range lo hi)).Makes
      (.binary (.member op) e (.range lo hi)) := fun op lo hi =>
    Build.makes_binary (wellPlaced_membership op he rfl)
  have hset : ∀ (op : SetOp) (members : List Expr), (∀ member ∈ members, ¬ member.isCollection) →
      (Build.set members >>= Build.binary (.member op) e).Makes
        (.binary (.member op) e (.set members)) := fun op members hmembers =>
    (Build.makes_set hmembers).bind (Build.makes_binary (wellPlaced_membership op he rfl))
  refine ⟨fun lo hi => ⟨?_, ?_, fun hempty => ?_⟩, fun hne => ?_, ?_, ?_,
    fun others hsub hsup => ?_⟩
  · exact (hrange .belongs lo hi).agree
      ((Build.makes_rel .le (not_isCollection_constant lo) he).bind
        ((Build.makes_rel .le he (not_isCollection_constant hi)).bind (Build.makes_nary
          (wellPlaced_nary_pair rfl (not_isCollection_binary _ _ _)
            (not_isCollection_binary _ _ _)))))
      (evaluatesAs_inRange he lo hi)
  · exact (hrange .avoids lo hi).agree
      ((hrange .belongs lo hi).bind (Build.makes_not (not_isCollection_binary _ _ _)))
      (evaluatesAs_avoids he _)
  · exact ⟨_, (hrange .belongs lo hi).result_eq, fun _ _ hn => evaluate_inRange_of_lt he hempty hn⟩
  · exact (hset .belongs elements helements).agree
      ((Build.makes_mapM fun member hmember =>
          Build.makes_rel .eq he (helements member hmember)).bind
        (Build.makes_nary (wellPlaced_nary_map rfl (not_isCollection_binary _ _) hne)))
      (evaluatesAs_inSet he hne helements)
  · exact (hset .belongs [] fun _ hmem => absurd hmem List.not_mem_nil).agree
      (Build.makes_nary (wellPlaced_nary_pair rfl he (not_isCollection_constant 0)))
      (evaluatesAs_inSet_nil he)
  · exact (hset .avoids elements helements).agree
      ((hset .belongs elements helements).bind (Build.makes_not (not_isCollection_binary _ _ _)))
      (evaluatesAs_avoids he _)
  · have hothers : ∀ member ∈ others, ¬ member.isCollection := fun member hmember =>
      helements member (hsub hmember)
    exact ⟨(hset .belongs others hothers).agree (hset .belongs elements helements)
        (sameValues_of_subset .belongs he helements hsub hsup),
      (hset .avoids others hothers).agree (hset .avoids elements helements)
        (sameValues_of_subset .avoids he helements hsub hsup)⟩

/-- The comparison with the first member does not save the evaluation of the second
one. -/
theorem membership_expansion_quotient :
    ¬ (Expr.var "x").isCollection ∧
      (∀ e ∈ [Expr.constant 0, .binary (.arith .div) (.constant 6) (.var "x")],
        ¬ e.isCollection) ∧
      [Expr.constant 0, .binary (.arith .div) (.constant 6) (.var "x")] ≠ [] ∧
      evaluate (fun _ => some 0)
        (.nary (.logic .or)
          [.binary (.rel .eq) (.var "x") (.constant 0),
            .binary (.rel .eq) (.var "x") (.binary (.arith .div) (.constant 6) (.var "x"))]) =
        .error .divisionByZero := by
  have hx : ¬ (Expr.var "x").isCollection := by decide
  have hmembers : ∀ e ∈ [Expr.constant 0, .binary (.arith .div) (.constant 6) (.var "x")],
      ¬ e.isCollection := by decide
  have hne : [Expr.constant 0, .binary (.arith .div) (.constant 6) (.var "x")] ≠ [] :=
    List.cons_ne_nil _ _
  have hset := (membership_expansion hx hmembers).2.1 hne
  refine ⟨hx, hmembers, hne, (hset.related rfl rfl _).symm.trans ?_⟩
  rw [evaluate_eq_bind]
  rfl

end ConstraintExpr
