import Mathlib.Algebra.Order.Group.MinMax
import ConstraintExpr.Proofs.Equivalence

/-!
# Arithmetic by fewer operators

Squares, differences, distances, absolute values and least values are what products,
sums, opposites and greatest values make of the same operands, failures included
(`derived_arithmetic`). A least value is the value of one of the operands and bounds
the values of all, and so is a greatest value from the other side
(`evaluate_min_eq_ok_iff`, `evaluate_max_eq_ok_iff`).
-/

namespace ConstraintExpr

open ConstraintExpr.Expr

/-! ### One operand -/

section

variable {a b : Expr} (ha : ¬ a.isCollection) (hb : ¬ b.isCollection)

include ha

theorem evaluate_neg (assignment : Assignment) :
    evaluate assignment (.unary (.arith .neg) a) = (evaluate assignment a).map fun x => -x := by
  rw [evaluate_unary assignment rfl ha]
  cases evaluate assignment a <;> rfl

theorem evaluatesAs_sqr :
    EvaluatesAs (.unary (.arith .sqr) a) (.nary (.arith .mul) [a, a]) := by
  intro assignment
  rw [evaluate_unary assignment rfl ha, evaluate_nary_pair assignment rfl ha ha, mapM_pair]
  cases evaluate assignment a <;> rfl

/-- Of a value and its opposite the greater one is not negative. -/
theorem evaluatesAs_abs :
    EvaluatesAs (.unary (.arith .abs) a) (.nary (.arith .max) [a, .unary (.arith .neg) a]) := by
  intro assignment
  rw [evaluate_unary assignment rfl ha,
    evaluate_nary_pair assignment rfl ha (not_isCollection_unary _ _), mapM_pair, evaluate_neg ha]
  cases evaluate assignment a with
  | error error => rfl
  | ok x =>
      have habs : Integer.abs x = max x (-x) := (Int.natCast_natAbs x).trans abs_eq_max_neg
      exact congrArg Except.ok habs

/-! ### Two operands -/

include hb

theorem evaluatesAs_sub :
    EvaluatesAs (.binary (.arith .sub) a b)
      (.nary (.arith .add) [a, .unary (.arith .neg) b]) := by
  intro assignment
  rw [evaluate_binary assignment rfl ha hb,
    evaluate_nary_pair assignment rfl ha (not_isCollection_unary _ _), mapM_pair, mapM_pair,
    evaluate_neg hb]
  cases evaluate assignment a with
  | error error => rfl
  | ok x =>
      cases evaluate assignment b with
      | error error => rfl
      | ok y => exact congrArg Except.ok (sub_eq_add_neg x y)

theorem evaluatesAs_dist :
    EvaluatesAs (.binary (.arith .dist) a b)
      (.unary (.arith .abs) (.binary (.arith .sub) a b)) := by
  intro assignment
  rw [evaluate_unary assignment rfl (not_isCollection_binary _ _ _),
    evaluate_binary assignment rfl ha hb, evaluate_binary assignment rfl ha hb, mapM_pair]
  cases evaluate assignment a with
  | error error => rfl
  | ok x => cases evaluate assignment b <;> rfl

end

/-! ### Any number of operands -/

theorem foldl_min_eq_neg_foldl_max (x : Int) (xs : List Int) :
    xs.foldl Min.min x = -(xs.map fun y => -y).foldl Max.max (-x) := by
  have hneg : (xs.map fun y => -y).foldl Max.max (-x) = -xs.foldl Min.min x := by
    rw [List.foldl_map]
    exact List.foldl_hom (fun y : Int => -y) fun y z => max_neg_neg y z
  rw [hneg, neg_neg]

section

variable {xs : List Expr} (hne : xs ≠ []) (hxs : ∀ x ∈ xs, ¬ x.isCollection)

include hne hxs

theorem evaluatesAs_min :
    EvaluatesAs (.nary (.arith .min) xs)
      (.unary (.arith .neg) (.nary (.arith .max) (xs.map (.unary (.arith .neg))))) := by
  have hmax : (Expr.nary (.arith .max) (xs.map (.unary (.arith .neg)))).WellPlaced :=
    wellPlaced_nary_map rfl (not_isCollection_unary _) hne
  intro assignment
  -- an opposite fails only where its operand does
  have hopposites : (xs.map (.unary (.arith .neg))).mapM (evaluate assignment) =
      (xs.mapM (evaluate assignment)).map (List.map fun x => -x) := by
    rw [List.mapM_map]
    exact mapM_eq_map fun x hx => evaluate_neg (hxs x hx) assignment
  rw [evaluate_neg (not_isCollection_nary _ _), evaluate_nary assignment rfl hxs,
    evaluate_nary assignment rfl hmax.2.2, hopposites]
  cases hns : xs.mapM (evaluate assignment) with
  | error error => rfl
  | ok ns =>
      -- the folds start from the first of the values
      obtain ⟨n, ns, rfl⟩ := List.exists_cons_of_ne_nil (ne_nil_of_mapM hns hne)
      exact congrArg Except.ok (foldl_min_eq_neg_foldl_max n ns)

/-- An operator that picks the bound of some values picks the bound of the values of
its operands, when all of these have values. -/
theorem evaluate_extremum_eq_ok_iff (op : Operator) (bounds : Int → Int → Prop)
    {assignment : Assignment} {n : Int} (hvalue : op.isSetBelonging = false)
    (happly : ∀ ns : List Int, ns ≠ [] →
      (op.apply ns = .ok n ↔ n ∈ ns ∧ ∀ m ∈ ns, bounds n m)) :
    evaluate assignment (.nary op xs) = .ok n ↔
      (∃ x ∈ xs, evaluate assignment x = .ok n) ∧
        ∀ x ∈ xs, ∃ m, evaluate assignment x = .ok m ∧ bounds n m := by
  rw [evaluate_nary assignment hvalue hxs, bind_eq_ok_iff]
  constructor
  · rintro ⟨ns, hns, h⟩
    obtain ⟨hmem, hbounds⟩ := (happly ns (ne_nil_of_mapM hns hne)).mp h
    refine ⟨exists_of_mem_mapM hns hmem, fun x hx => ?_⟩
    obtain ⟨m, hm, hmem⟩ := exists_ok_of_mapM hns hx
    exact ⟨m, hm, hbounds m hmem⟩
  · rintro ⟨⟨x, hx, hn⟩, hall⟩
    -- the bounds say that every operand has a value
    obtain ⟨ns, hns⟩ := exists_mapM_eq_ok fun x hx => (hall x hx).imp fun _ h => h.1
    refine ⟨ns, hns, (happly ns (ne_nil_of_mapM hns hne)).mpr ⟨?_, fun m hm => ?_⟩⟩
    · obtain ⟨m, hm, hmem⟩ := exists_ok_of_mapM hns hx
      obtain rfl : m = n := Except.ok.inj (hm.symm.trans hn)
      exact hmem
    · obtain ⟨y, hy, hvalue⟩ := exists_of_mem_mapM hns hm
      obtain ⟨m', hm', hbounds⟩ := hall y hy
      obtain rfl : m' = m := Except.ok.inj (hm'.symm.trans hvalue)
      exact hbounds

theorem evaluate_min_eq_ok_iff {assignment : Assignment} {n : Int} :
    evaluate assignment (.nary (.arith .min) xs) = .ok n ↔
      (∃ x ∈ xs, evaluate assignment x = .ok n) ∧
        ∀ x ∈ xs, ∃ m, evaluate assignment x = .ok m ∧ n ≤ m := by
  refine evaluate_extremum_eq_ok_iff hne hxs (.arith .min) (fun n m => n ≤ m) rfl fun ns hns => ?_
  obtain ⟨m, ns, rfl⟩ := List.exists_cons_of_ne_nil hns
  rw [Operator.apply_nary rfl, Meaning.nary, Except.ok.injEq, List.min_eq_iff]

theorem evaluate_max_eq_ok_iff {assignment : Assignment} {n : Int} :
    evaluate assignment (.nary (.arith .max) xs) = .ok n ↔
      (∃ x ∈ xs, evaluate assignment x = .ok n) ∧
        ∀ x ∈ xs, ∃ m, evaluate assignment x = .ok m ∧ m ≤ n := by
  refine evaluate_extremum_eq_ok_iff hne hxs (.arith .max) (fun n m => m ≤ n) rfl fun ns hns => ?_
  obtain ⟨m, ns, rfl⟩ := List.exists_cons_of_ne_nil hns
  rw [Operator.apply_nary rfl, Meaning.nary, Except.ok.injEq, List.max_eq_iff]

end

/-- The derived operators evaluate as their definitions, and least and greatest
values are those of an operand and bound the values of all. -/
theorem derived_arithmetic {a b : Expr} (ha : ¬ a.isCollection) (hb : ¬ b.isCollection)
    {xs : List Expr} (hne : xs ≠ []) (hxs : ∀ x ∈ xs, ¬ x.isCollection) :
    Build.Agree EvaluatesAs (Build.sqr a) (Build.mul [a, a]) ∧
    Build.Agree EvaluatesAs (Build.sub a b) (do Build.add [a, ← Build.neg b]) ∧
    Build.Agree EvaluatesAs (Build.dist a b) (do Build.abs (← Build.sub a b)) ∧
    Build.Agree EvaluatesAs (Build.abs a) (do Build.max [a, ← Build.neg a]) ∧
    Build.Agree EvaluatesAs (Build.min xs)
      (do Build.neg (← Build.max (← xs.mapM Build.neg))) ∧
    ∃ least greatest, (Build.min xs).result = .ok least ∧ (Build.max xs).result = .ok greatest ∧
      ∀ (assignment : Assignment) (n : Int),
        (evaluate assignment least = .ok n ↔
          (∃ x ∈ xs, evaluate assignment x = .ok n) ∧
            ∀ x ∈ xs, ∃ m, evaluate assignment x = .ok m ∧ n ≤ m) ∧
        (evaluate assignment greatest = .ok n ↔
          (∃ x ∈ xs, evaluate assignment x = .ok n) ∧
            ∀ x ∈ xs, ∃ m, evaluate assignment x = .ok m ∧ m ≤ n) := by
  have hneg : ∀ {e}, ¬ e.isCollection → (Build.neg e).Makes (.unary (.arith .neg) e) :=
    fun he => Build.makes_unary ⟨rfl, he⟩
  have hsub : (Build.sub a b).Makes (.binary (.arith .sub) a b) :=
    Build.makes_binary (wellPlaced_binary rfl rfl ha hb)
  have hmin : (Build.min xs).Makes (.nary (.arith .min) xs) := Build.makes_nary ⟨rfl, hne, hxs⟩
  have hmax : (Build.max xs).Makes (.nary (.arith .max) xs) := Build.makes_nary ⟨rfl, hne, hxs⟩
  refine ⟨?_, ?_, ?_, ?_, ?_, _, _, hmin.result_eq, hmax.result_eq, fun assignment n =>
    ⟨evaluate_min_eq_ok_iff hne hxs, evaluate_max_eq_ok_iff hne hxs⟩⟩
  · exact Build.Makes.agree (Build.makes_unary ⟨rfl, ha⟩)
      (Build.makes_nary (wellPlaced_nary_pair rfl ha ha)) (evaluatesAs_sqr ha)
  · have hadd : (Expr.nary (.arith .add) [a, .unary (.arith .neg) b]).WellPlaced :=
      wellPlaced_nary_pair rfl ha (not_isCollection_unary _ _)
    exact hsub.agree ((hneg hb).bind (Build.makes_nary hadd)) (evaluatesAs_sub ha hb)
  · have habs : (Expr.unary (.arith .abs) (.binary (.arith .sub) a b)).WellPlaced :=
      ⟨rfl, not_isCollection_binary _ _ _⟩
    exact Build.Makes.agree (Build.makes_binary (wellPlaced_binary rfl rfl ha hb))
      (hsub.bind (Build.makes_unary habs)) (evaluatesAs_dist ha hb)
  · have hpair : (Expr.nary (.arith .max) [a, .unary (.arith .neg) a]).WellPlaced :=
      wellPlaced_nary_pair rfl ha (not_isCollection_unary _ _)
    exact Build.Makes.agree (Build.makes_unary ⟨rfl, ha⟩)
      ((hneg ha).bind (Build.makes_nary hpair)) (evaluatesAs_abs ha)
  · have hopposites : (Expr.nary (.arith .max) (xs.map (.unary (.arith .neg)))).WellPlaced :=
      wellPlaced_nary_map rfl (not_isCollection_unary _) hne
    exact hmin.agree
      ((Build.makes_mapM fun x hx => hneg (hxs x hx)).bind
        ((Build.makes_nary hopposites).bind (hneg (not_isCollection_nary _ _))))
      (evaluatesAs_min hne hxs)

/-- The least of two values and the opposite of the greater opposite. -/
theorem derived_arithmetic_minus_seven :
    ¬ (Expr.var "x").isCollection ∧ ¬ (Expr.var "y").isCollection ∧
      [Expr.var "x", .var "y"] ≠ [] ∧ (∀ e ∈ [Expr.var "x", .var "y"], ¬ e.isCollection) ∧
      evaluate (fun id => if id = "x" then some (-7) else some 2)
        (.unary (.arith .neg)
          (.nary (.arith .max)
            [.unary (.arith .neg) (.var "x"), .unary (.arith .neg) (.var "y")])) = .ok (-7) := by
  have hx : ¬ (Expr.var "x").isCollection := by decide
  have hy : ¬ (Expr.var "y").isCollection := by decide
  have hne : [Expr.var "x", .var "y"] ≠ [] := List.cons_ne_nil _ _
  have hxs : ∀ e ∈ [Expr.var "x", .var "y"], ¬ e.isCollection := by decide
  obtain ⟨_, _, _, _, hmin, _⟩ := derived_arithmetic hx hy hne hxs
  refine ⟨hx, hy, hne, hxs, (hmin.related rfl rfl _).symm.trans ?_⟩
  rw [evaluate_eq_bind]
  rfl

end ConstraintExpr
