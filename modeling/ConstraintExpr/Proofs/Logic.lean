import ConstraintExpr.Proofs.Truth

/-!
# The laws of a two-valued logic

On trees of any values, the Boolean operators obey the laws of a two-valued logic,
as far as evaluation goes and with the same failures (`two_valued_logic`):

* a node whose operator is Boolean, relational or set-belonging is worth one or zero
  (`exists_ofBool_of_evaluate`);
* an operand counts by its truth value only (`evaluatesAs_of_not_not`);
* negations go through conjunctions and disjunctions, implications and
  equivalences are made of these and of negations, and one true operand more turns
  a parity round.
-/

namespace ConstraintExpr

open Integer (truthy ofBool)
open ConstraintExpr.Expr

/-! ### Answers are truth values -/

/-- Only arithmetic operators give anything else than one or zero. -/
theorem Operator.exists_ofBool_of_apply {op : Operator} (hop : ∀ arith, op ≠ .arith arith)
    {xs : List Int} {n : Int} (h : op.apply xs = .ok n) : ∃ b, n = ofBool b := by
  cases op with
  | arith op => exact absurd rfl (hop op)
  | logic op =>
      rw [apply] at h
      revert h
      fun_cases BoolOp.apply op xs
      -- the number of operands does not fit, so there is no answer
      case case7 =>
        intro h
        cases h
      all_goals
        intro h
        cases h
        exact ⟨_, rfl⟩
  | rel op =>
      rw [apply] at h
      revert h
      fun_cases RelOp.apply op xs
      case case1 =>
        intro h
        cases h
        exact ⟨_, rfl⟩
      case case2 =>
        intro h
        cases h
  | member op => cases h

namespace Eval

variable {assignment : Assignment}

theorem exists_ofBool_of_operation {op : Operator} (hop : ∀ arith, op ≠ .arith arith)
    {operands : List Operand} {operand : Operand} (h : operation op operands = .ok operand) :
    ∃ b, operand = .value (ofBool b) := by
  obtain ⟨xs, _, h⟩ := bind_eq_ok_iff.mp h
  obtain ⟨n, hn, h⟩ := bind_eq_ok_iff.mp h
  cases h
  obtain ⟨b, rfl⟩ := Operator.exists_ofBool_of_apply hop hn
  exact ⟨b, rfl⟩

theorem exists_ofBool_of_membership {op : SetOp} {operands : List Operand} {operand : Operand}
    (h : membership op operands = .ok operand) : ∃ b, operand = .value (ofBool b) := by
  unfold membership at h
  split at h
  · obtain ⟨n, _, h⟩ := bind_eq_ok_iff.mp h
    cases h
    exact ⟨_, rfl⟩
  · cases h

theorem exists_ofBool_of_combine {e : Expr} {op : Operator} (hop : e.operator? = some op)
    (hlogical : ∀ arith, op ≠ .arith arith) {operands : List Operand} {operand : Operand}
    (h : combine assignment e.label operands = .ok operand) :
    ∃ b, operand = .value (ofBool b) := by
  cases e with
  | unary op' child =>
      cases hop
      exact exists_ofBool_of_operation hlogical h
  | binary op' left right =>
      cases hop
      cases op with
      | member op => exact exists_ofBool_of_membership h
      | _ => exact exists_ofBool_of_operation hlogical h
  | nary op' children =>
      cases hop
      exact exists_ofBool_of_operation hlogical h
  | _ => cases hop

end Eval

/-- A node whose operator is not arithmetic is worth one or zero. -/
theorem exists_ofBool_of_evaluate {assignment : Assignment} {e : Expr} {op : Operator}
    (hop : e.operator? = some op) (hlogical : ∀ arith, op ≠ .arith arith) {n : Int}
    (h : evaluate assignment e = .ok n) : ∃ b, n = ofBool b := by
  rw [evaluate_eq_bind, Reduction.value_eq] at h
  obtain ⟨operand, hoperand, h⟩ := bind_eq_ok_iff.mp h
  obtain ⟨operands, _, hcombine⟩ := bind_eq_ok_iff.mp hoperand
  obtain ⟨b, rfl⟩ := Eval.exists_ofBool_of_combine hop hlogical hcombine
  cases h
  exact ⟨b, rfl⟩

/-! ### Operands count by their truth values -/

/-- An operand of a Boolean operator can be negated twice. -/
theorem evaluatesAs_of_not_not {d e operand : Expr} {op : BoolOp} {before after : List Expr}
    (hroot : d.WellPlaced) (hop : d.operator? = some (.logic op)) (hlabel : e.label = d.label)
    (hd : d.children = before ++ [operand] ++ after)
    (he : e.children =
      before ++ [.unary (.logic .not) (.unary (.logic .not) operand)] ++ after) :
    e.EvaluatesAs d := by
  have hvalues := hroot.not_isCollection hop rfl
  have hoperand : ¬ operand.isCollection := hvalues operand (by simp [hd])
  have hvalues' : ∀ child ∈ e.children, ¬ child.isCollection := by
    intro child hchild
    rw [he, List.mem_append, List.mem_append, List.mem_singleton] at hchild
    rcases hchild with (hchild | rfl) | hchild
    · exact hvalues child (by simp [hd, hchild])
    · exact Bool.false_ne_true
    · exact hvalues child (by simp [hd, hchild])
  have hop' : e.operator? = some (.logic op) := by
    rw [← hop, Expr.operator?, Expr.operator?, hlabel]
  -- a label has as many operands in either tree
  have haccepts : op.arity.accepts e.children.length := by
    rw [Expr.length_children, hlabel, ← Expr.length_children]
    exact hroot.accepts hop
  intro assignment
  rw [evaluate_eq_map_truth assignment hop' haccepts hvalues',
    evaluate_logic assignment hroot hop, hd, he]
  simp only [List.mapM_append, mapM_singleton, satisfies_not_not assignment hoperand]

/-! ### Laws -/

section Laws

variable {xs : List Expr} (hne : xs ≠ []) (hxs : ∀ x ∈ xs, ¬ x.isCollection)

include hne hxs

/-- A negation goes to the operands and leaves the dual operator behind. -/
theorem evaluatesAs_not_nary {op dual : BoolOp} (hop : op.arity = .nary)
    (hdual : dual.arity = .nary) (htruth : ∀ ts, (!op.truth ts) = dual.truth (ts.map Bool.not)) :
    EvaluatesAs (.unary (.logic .not) (.nary (.logic op) xs))
      (.nary (.logic dual) (xs.map (.unary (.logic .not)))) := by
  have hinner : (Expr.nary (.logic op) xs).WellPlaced := ⟨hop, hne, hxs⟩
  have houter : (Expr.nary (.logic dual) (xs.map (.unary (.logic .not)))).WellPlaced :=
    wellPlaced_nary_map hdual (not_isCollection_unary _) hne
  intro assignment
  -- both sides come down to the truth values of `xs`, or to the first of these that fails
  rw [evaluate_not assignment (not_isCollection_nary _ _), satisfies_nary_logic assignment hinner,
    evaluate_nary_logic assignment houter, mapM_satisfies_not assignment hxs]
  cases xs.mapM (satisfies assignment) with
  | error error => rfl
  | ok ts => exact congrArg (fun t => Except.ok (ofBool t)) (htruth ts)

/-- The operands are alike when all of them hold or none does. -/
theorem evaluatesAs_iff :
    EvaluatesAs (.nary (.logic .iff) xs)
      (.nary (.logic .or)
        [.nary (.logic .and) xs, .unary (.logic .not) (.nary (.logic .or) xs)]) := by
  have hiff : (Expr.nary (.logic .iff) xs).WellPlaced := ⟨rfl, hne, hxs⟩
  have hand : (Expr.nary (.logic .and) xs).WellPlaced := ⟨rfl, hne, hxs⟩
  have hor : (Expr.nary (.logic .or) xs).WellPlaced := ⟨rfl, hne, hxs⟩
  have houter : (Expr.nary (.logic .or)
      [.nary (.logic .and) xs, .unary (.logic .not) (.nary (.logic .or) xs)]).WellPlaced :=
    wellPlaced_nary_pair rfl (not_isCollection_nary _ _) (not_isCollection_unary _ _)
  intro assignment
  -- `xs` are evaluated twice on the right, but a second failure is never reached
  rw [evaluate_nary_logic assignment hiff, evaluate_nary_logic assignment houter, mapM_pair,
    satisfies_not assignment (not_isCollection_nary _ _), satisfies_nary_logic assignment hand,
    satisfies_nary_logic assignment hor]
  cases xs.mapM (satisfies assignment) with
  | error error => rfl
  | ok ts =>
      have htruth : BoolOp.truth .iff ts =
          (BoolOp.truth .and ts || (!BoolOp.truth .or ts || false)) := by
        rw [Bool.or_false]
        rfl
      exact congrArg (fun t => Except.ok (ofBool t)) htruth

/-- One true operand more turns a parity round. -/
theorem evaluatesAs_not_xor :
    EvaluatesAs (.unary (.logic .not) (.nary (.logic .xor) xs))
      (.nary (.logic .xor) (xs ++ [.constant 1])) := by
  have hxor : (Expr.nary (.logic .xor) xs).WellPlaced := ⟨rfl, hne, hxs⟩
  have hlonger : (Expr.nary (.logic .xor) (xs ++ [.constant 1])).WellPlaced :=
    wellPlaced_nary_concat rfl hxs (not_isCollection_constant 1)
  intro assignment
  have hone : satisfies assignment (.constant 1) = .ok true := by
    rw [satisfies, evaluate_constant]
    rfl
  rw [evaluate_not assignment (not_isCollection_nary _ _), satisfies_nary_logic assignment hxor,
    evaluate_nary_logic assignment hlonger, List.mapM_append, mapM_singleton, hone]
  cases xs.mapM (satisfies assignment) with
  | error error => rfl
  | ok ts => exact congrArg (fun t => Except.ok (ofBool t)) (BoolOp.not_truth_xor ts)

end Laws

theorem evaluatesAs_imp {a b : Expr} (ha : ¬ a.isCollection) (hb : ¬ b.isCollection) :
    EvaluatesAs (.binary (.logic .imp) a b)
      (.nary (.logic .or) [.unary (.logic .not) a, b]) := by
  have himp : (Expr.binary (.logic .imp) a b).WellPlaced := wellPlaced_binary rfl rfl ha hb
  have hor : (Expr.nary (.logic .or) [.unary (.logic .not) a, b]).WellPlaced :=
    wellPlaced_nary_pair rfl (not_isCollection_unary _ _) hb
  intro assignment
  rw [evaluate_logic assignment himp rfl, evaluate_nary_logic assignment hor, Expr.children,
    mapM_pair, mapM_pair, satisfies_not assignment ha]
  cases satisfies assignment a with
  | error error => rfl
  | ok s =>
      cases satisfies assignment b with
      | error error => rfl
      | ok t =>
          have htruth : (!s || t) = (!s || (t || false)) := by rw [Bool.or_false]
          exact congrArg (fun t => Except.ok (ofBool t)) htruth

/-- Trees of any values obey the laws of a two-valued logic: the answers are truth
values, operands count by theirs, and negations, implications, equivalences and
parities are what they are on truth values. Failures are the same on both sides. -/
theorem two_valued_logic {xs : List Expr} (hne : xs ≠ []) (hxs : ∀ x ∈ xs, ¬ x.isCollection)
    {a b : Expr} (ha : ¬ a.isCollection) (hb : ¬ b.isCollection) :
    (∀ (e : Expr) (op : Operator), e.operator? = some op → (∀ arith, op ≠ .arith arith) →
      ∀ (assignment : Assignment) (n : Int), evaluate assignment e = .ok n → n = 0 ∨ n = 1) ∧
    (∀ (d e operand : Expr) (op : BoolOp) (before after : List Expr), d.WellPlaced →
      d.operator? = some (.logic op) → e.label = d.label →
      d.children = before ++ [operand] ++ after →
      e.children =
        before ++ [.unary (.logic .not) (.unary (.logic .not) operand)] ++ after →
      e.EvaluatesAs d) ∧
    Build.Agree EvaluatesAs (do Build.not (← Build.and xs))
      (do Build.or (← xs.mapM Build.not)) ∧
    Build.Agree EvaluatesAs (do Build.not (← Build.or xs))
      (do Build.and (← xs.mapM Build.not)) ∧
    Build.Agree EvaluatesAs (Build.imp a b) (do Build.or [← Build.not a, b]) ∧
    Build.Agree EvaluatesAs (Build.iff xs)
      (do Build.or [← Build.and xs, ← Build.not (← Build.or xs)]) ∧
    Build.Agree EvaluatesAs (do Build.not (← Build.xor xs))
      (Build.xor (xs ++ [.constant 1])) := by
  have hnary : ∀ op : BoolOp, op.arity = .nary →
      (Build.nary (.logic op) xs).Makes (.nary (.logic op) xs) :=
    fun op hop => Build.makes_nary ⟨hop, hne, hxs⟩
  have hnot : ∀ op : BoolOp, op.arity = .nary →
      (do Build.not (← Build.nary (.logic op) xs)).Makes
        (.unary (.logic .not) (.nary (.logic op) xs)) :=
    fun op hop => (hnary op hop).bind (Build.makes_not (not_isCollection_nary _ _))
  have hnots : ∀ op : BoolOp, op.arity = .nary →
      (do Build.nary (.logic op) (← xs.mapM Build.not)).Makes
        (.nary (.logic op) (xs.map (.unary (.logic .not)))) := fun op hop =>
    (Build.makes_mapM fun x hx => Build.makes_not (hxs x hx)).bind
      (Build.makes_nary (wellPlaced_nary_map hop (not_isCollection_unary _) hne))
  refine ⟨fun e op hop hlogical assignment n h => ?_, fun d e operand op before after => ?_,
    ?_, ?_, ?_, ?_, ?_⟩
  · obtain ⟨b, rfl⟩ := exists_ofBool_of_evaluate hop hlogical h
    cases b
    · exact .inl rfl
    · exact .inr rfl
  · exact evaluatesAs_of_not_not
  · exact (hnot .and rfl).agree (hnots .or rfl)
      (evaluatesAs_not_nary hne hxs rfl rfl BoolOp.not_truth_and)
  · exact (hnot .or rfl).agree (hnots .and rfl)
      (evaluatesAs_not_nary hne hxs rfl rfl BoolOp.not_truth_or)
  · exact (Build.makes_binary (wellPlaced_binary rfl rfl ha hb)).agree
      ((Build.makes_not ha).bind
        (Build.makes_nary (wellPlaced_nary_pair rfl (not_isCollection_unary _ _) hb)))
      (evaluatesAs_imp ha hb)
  · exact (hnary .iff rfl).agree
      ((hnary .and rfl).bind ((hnary .or rfl).bind
        ((Build.makes_not (not_isCollection_nary _ _)).bind (Build.makes_nary
          (wellPlaced_nary_pair rfl (not_isCollection_nary _ _) (not_isCollection_unary _ _))))))
      (evaluatesAs_iff hne hxs)
  · exact (hnot .xor rfl).agree
      (Build.makes_nary (wellPlaced_nary_concat rfl hxs (not_isCollection_constant 1)))
      (evaluatesAs_not_xor hne hxs)

/-- A conjunction with a false operand has no value without that of the other one,
and its negation, gone to the operands, fails alike. -/
theorem two_valued_logic_quotient :
    [Expr.var "x", .binary (.arith .div) (.constant 1) (.var "x")] ≠ [] ∧
      (∀ e ∈ [Expr.var "x", .binary (.arith .div) (.constant 1) (.var "x")], ¬ e.isCollection) ∧
      ¬ (Expr.var "x").isCollection ∧ ¬ (Expr.constant 5).isCollection ∧
      evaluate (fun _ => some 0)
        (.nary (.logic .or)
          [.unary (.logic .not) (.var "x"),
            .unary (.logic .not) (.binary (.arith .div) (.constant 1) (.var "x"))]) =
        .error .divisionByZero := by
  have hne : [Expr.var "x", .binary (.arith .div) (.constant 1) (.var "x")] ≠ [] :=
    List.cons_ne_nil _ _
  have hxs : ∀ e ∈ [Expr.var "x", .binary (.arith .div) (.constant 1) (.var "x")],
      ¬ e.isCollection := by decide
  have hx : ¬ (Expr.var "x").isCollection := by decide
  have hfive : ¬ (Expr.constant 5).isCollection := by decide
  obtain ⟨_, _, hdual, _⟩ := two_valued_logic hne hxs hx hfive
  refine ⟨hne, hxs, hx, hfive, (hdual.related rfl rfl _).symm.trans ?_⟩
  rw [evaluate_eq_bind]
  rfl

end ConstraintExpr
