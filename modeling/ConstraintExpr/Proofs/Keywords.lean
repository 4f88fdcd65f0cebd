import ConstraintExpr.Proofs.Construction

/-!
# What the builders by keyword refuse

A builder that is named after its operator asks for a node of the arity that the
operator has. So there is nothing left for it to refuse but a range or a set among
its arguments and an empty list of operands.

* `Build.KeywordCall` lists the calls, with the trees that have to be values in the order
  in which they are looked at, and the node asked for;
* `Build.KeywordCall.judges`: the violations such a call goes by;
* `Build.keyword_outcomes`: when a call succeeds, and what it says when it does not.
-/

namespace ConstraintExpr.Build

/-! ### Calls -/

/-- A call of a builder that is named after its operator, the trees that have to be
values in the order in which they are looked at, and the node asked for. -/
inductive KeywordCall : Build Expr → List Expr → Expr → Prop
  | unary {op build} (operand) : (op, build) ∈ unaryOperators →
      KeywordCall (build operand) [operand] (.unary op operand)
  | binary {op build} (left right) : (op, build) ∈ binaryOperators →
      KeywordCall (build left right) [left, right] (.binary op left right)
  | nary {op build} (operands) : (op, build) ∈ naryOperators →
      KeywordCall (build operands) operands (.nary op operands)
  | ifThenElse (condition ifTrue ifFalse) :
      KeywordCall (Build.ifThenElse condition ifTrue ifFalse) [condition, ifTrue, ifFalse]
        (.ifThenElse condition ifTrue ifFalse)
  | range {op build} (e lo hi) : (op, build) ∈ rangeOperators →
      KeywordCall (build e lo hi) [e] (.binary (.member op) e (.range lo hi))
  /-- The elements come before the tree that is to be one of them. -/
  | set {op build} (e elements) : (op, build) ∈ setOperators →
      KeywordCall (build e elements) (elements ++ [e]) (.binary (.member op) e (.set elements))

/-! ### What can be wrong with a call -/

/-- An operator that wants operands has got none. -/
def lacksOperands : Expr → Option BuildError
  | .nary op [] => some (.invalidArity op .nary 0)
  | _ => none

theorem violation_of_arity {op : Operator} {shape : Arity} {found : Nat}
    (hop : op.arity = shape) (hfound : shape.accepts found) : op.violation shape found = none :=
  Expr.operatorViolation_eq_none_iff.mpr ⟨hop, hfound⟩

theorem violation_nary_eq {op : Operator} (hop : op.arity = .nary) (operands : List Expr) :
    op.violation .nary operands.length = lacksOperands (.nary op operands) := by
  cases operands with
  | nil =>
      rw [Operator.violation, if_neg fun h => Bool.false_ne_true h.2, hop]
      rfl
  | cons operand operands =>
      have hfound : Arity.nary.accepts (operands.length + 1) :=
        decide_eq_true (Nat.le_add_left 1 operands.length)
      exact violation_of_arity hop hfound

/-- A range or a set that is made for the purpose stands where it belongs. -/
theorem judges_membership (op : SetOp) (e : Expr) {collection : Expr}
    (hkind : collection.isCollection) :
    (binary (.member op) e collection).Judges e.valueViolation
      (.binary (.member op) e collection) := by
  have hop : (Operator.member op).violation .binary 2 = none := violation_of_arity rfl rfl
  have hright : Expr.rightViolation (.member op) collection = none :=
    (if_pos rfl).trans (if_pos hkind)
  have hjudges := judges_binary (.member op) e collection
  rw [Expr.violation, hop, hright, Option.or_none] at hjudges
  exact hjudges

/-- A call goes by the first range or set among its arguments, once it has got any. -/
theorem KeywordCall.judges {build : Build Expr} {checked : List Expr} {node : Expr}
    (h : KeywordCall build checked node) :
    build.Judges ((lacksOperands node).or (checked.findSome? Expr.valueViolation)) node := by
  cases h with
  | @unary op build operand h =>
      obtain ⟨hop, rfl⟩ := arity_of_mem_unaryOperators h
      have hjudges := judges_unary op operand
      rw [Expr.violation, violation_of_arity hop rfl] at hjudges
      rw [findSome?_cons_eq_or, List.findSome?_nil, Option.or_none]
      exact hjudges
  | @binary op build left right h =>
      obtain ⟨hop, hvalue, rfl⟩ := arity_of_mem_binaryOperators h
      have hjudges := judges_binary op left right
      rw [Expr.violation, violation_of_arity hop rfl, Expr.rightViolation, hvalue,
        if_neg Bool.false_ne_true] at hjudges
      rw [findSome?_cons_eq_or, findSome?_cons_eq_or, List.findSome?_nil, Option.or_none]
      exact hjudges
  | @nary op build operands h =>
      obtain ⟨hop, rfl⟩ := arity_of_mem_naryOperators h
      have hjudges := judges_nary op checked
      rw [Expr.violation, violation_nary_eq hop] at hjudges
      exact hjudges
  | ifThenElse condition ifTrue ifFalse =>
      rw [findSome?_cons_eq_or, findSome?_cons_eq_or, findSome?_cons_eq_or, List.findSome?_nil,
        Option.or_none]
      exact judges_ifThenElse condition ifTrue ifFalse
  | @range op build e lo hi h =>
      obtain rfl := eq_of_mem_rangeOperators h
      rw [findSome?_cons_eq_or, List.findSome?_nil, Option.or_none]
      exact judges_membership op e rfl
  | @set op build e elements h =>
      obtain rfl := eq_of_mem_setOperators h
      rw [List.findSome?_append, findSome?_cons_eq_or, List.findSome?_nil, Option.or_none]
      exact (judges_set elements).bind (judges_membership op e rfl)

/-! ### Outcomes -/

theorem lacksOperands_eq_some_iff {node : Expr} {error : BuildError} :
    lacksOperands node = some error ↔
      ∃ op, node = .nary op [] ∧ error = .invalidArity op .nary 0 := by
  unfold lacksOperands
  split
  · simp [eq_comm]
  next hnode =>
    simp only [reduceCtorEq, false_iff, not_exists, not_and]
    exact fun op h => absurd h (hnode op)

theorem KeywordCall.lacksOperands_eq_none_iff {build : Build Expr} {checked : List Expr}
    {node : Expr} (h : KeywordCall build checked node) :
    lacksOperands node = none ↔ (node.kind = .nary → checked ≠ []) := by
  cases h with
  | nary operands h => cases checked <;> simp [lacksOperands, Expr.kind, Expr.label, Label.kind]
  | _ => simp [lacksOperands, Expr.kind, Expr.label, Label.kind]

/-- The first range or set of a list is reported. -/
theorem findSome?_valueViolation_eq_some_iff {es : List Expr} {error : BuildError} :
    es.findSome? Expr.valueViolation = some error ↔
      ∃ before e after, es = before ++ e :: after ∧
        (∀ earlier ∈ before, ¬ earlier.isCollection) ∧ e.isCollection ∧
          error = .misplacedCollection e.kind := by
  rw [List.findSome?_eq_some_iff]
  simp only [Expr.valueViolation_eq_none_iff]
  constructor
  · rintro ⟨before, e, after, hsplit, he, hbefore⟩
    obtain ⟨hkind, herror⟩ := Option.ite_none_right_eq_some.mp he
    exact ⟨before, e, after, hsplit, hbefore, hkind, (Option.some.inj herror).symm⟩
  · rintro ⟨before, e, after, hsplit, hbefore, hkind, rfl⟩
    exact ⟨before, e, after, hsplit, if_pos hkind, hbefore⟩

/-- A call makes the node asked for if all arguments are values and an n-ary operator gets
at least one. Otherwise it says that there are no operands, or names the first argument that
is a range or a set. -/
theorem keyword_outcomes {build : Build Expr} {checked : List Expr} {node : Expr}
    (h : KeywordCall build checked node) :
    (∀ tree, build.result = .ok tree ↔
      (∀ e ∈ checked, ¬ e.isCollection) ∧ (node.kind = .nary → checked ≠ []) ∧ tree = node) ∧
    ∀ error, build.result = .error error ↔
      (∃ op, node = .nary op [] ∧ error = .invalidArity op .nary 0) ∨
        ∃ before e after, checked = before ++ e :: after ∧
          (∀ earlier ∈ before, ¬ earlier.isCollection) ∧ e.isCollection ∧
            error = .misplacedCollection e.kind := by
  constructor
  · intro tree
    rw [h.judges.result_eq_ok_iff, Option.or_eq_none_iff, h.lacksOperands_eq_none_iff,
      List.findSome?_eq_none_iff]
    simp only [Expr.valueViolation_eq_none_iff]
    rw [and_assoc]
    exact and_left_comm
  · intro error
    rw [h.judges.result_eq_error_iff, Option.or_eq_some_iff, lacksOperands_eq_some_iff,
      findSome?_valueViolation_eq_some_iff, h.lacksOperands_eq_none_iff]
    refine or_congr_right (and_iff_right_of_imp ?_)
    rintro ⟨before, e, after, hsplit, _⟩ _
    rw [hsplit]
    exact List.append_ne_nil_of_right_ne_nil before (List.cons_ne_nil e after)

/-- A range among the elements comes before a set that is to be an element. -/
theorem keyword_outcomes_notInSet :
    KeywordCall (notInSet (.set []) [.var "x", .range 1 5]) [.var "x", .range 1 5, .set []]
        (.binary (.member .avoids) (.set []) (.set [.var "x", .range 1 5])) ∧
      (notInSet (.set []) [.var "x", .range 1 5]).result =
        .error (.misplacedCollection .range) := by
  have hcall : KeywordCall (notInSet (.set []) [.var "x", .range 1 5])
      [.var "x", .range 1 5, .set []]
      (.binary (.member .avoids) (.set []) (.set [.var "x", .range 1 5])) :=
    .set (.set []) [.var "x", .range 1 5] (List.mem_cons_of_mem _ List.mem_cons_self)
  refine ⟨hcall, ((keyword_outcomes hcall).2 _).mpr (.inr ?_)⟩
  exact ⟨[.var "x"], .range 1 5, [.set []], rfl, by decide, rfl, rfl⟩

end ConstraintExpr.Build
