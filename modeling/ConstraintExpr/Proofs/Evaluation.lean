import ConstraintExpr.Proofs.Construction
import ConstraintExpr.Proofs.Operators
import ConstraintExpr.Proofs.StackMachine

/-!
# Evaluation computes the meaning

The stack machine leaves on its stack the operand that stands for the meaning
of the tree (`Eval.value_reduction`), and so evaluation gives the value that
the recursion over the tree gives, or its failure
(`evaluate_eq_value`).
-/

namespace ConstraintExpr

namespace Meaning

theorem values_eq_mapM (assignment : Assignment) (es : List Expr) :
    values assignment es = es.mapM (value assignment) := by
  induction es with
  | nil => rfl
  | cons e es ih => rw [List.mapM_cons, values, ih]

/-- What a tree leaves on the stack: a range and a set stand for themselves,
any other tree for its value. -/
def operand (assignment : Assignment) : Expr → Except EvalError Operand
  | .range lo hi => .ok (.range lo hi)
  | .set elements => (values assignment elements).map .set
  | e => (value assignment e).map .value

theorem operand_of_not_collection (assignment : Assignment) {e : Expr}
    (hvalue : ¬ e.isCollection) : operand assignment e = (value assignment e).map .value := by
  cases e with
  | range lo hi => exact absurd rfl hvalue
  | set elements => exact absurd rfl hvalue
  | _ => rfl

end Meaning

namespace Eval

variable {assignment : Assignment}

theorem toValues_map_value (xs : List Int) : Operand.toValues (xs.map .value) = .ok xs := by
  rw [Operand.toValues, mapM_eq_ok_iff, List.forall₂_map_left_iff]
  exact List.forall₂_same.mpr fun x _ => rfl

/-- The operands of values are evaluated from left to right, up to the first
failure. -/
theorem mapM_of_values {f : Expr → Except EvalError Operand} {es : List Expr}
    (hes : ∀ e ∈ es, f e = (Meaning.value assignment e).map .value) :
    es.mapM f = (Meaning.values assignment es).map (List.map .value) := by
  rw [Meaning.values_eq_mapM]
  exact mapM_eq_map hes

/-- An operator is applied to the values of its operands. -/
theorem mapM_bind_operation {f : Expr → Except EvalError Operand} {es : List Expr} (op : Operator)
    (hes : ∀ e ∈ es, f e = (Meaning.value assignment e).map .value) :
    es.mapM f >>= operation op = (Meaning.values assignment es >>= op.apply).map .value := by
  rw [mapM_of_values hes]
  cases Meaning.values assignment es with
  | error error => rfl
  | ok xs =>
      show operation op (xs.map .value) = (op.apply xs).map .value
      rw [operation, toValues_map_value, ok_bind]
      cases op.apply xs <;> rfl

variable (assignment) in
theorem values_bind_unary {op : Operator} (harity : op.arity = .unary) (operand : Expr) :
    Meaning.values assignment [operand] >>= op.apply =
      Meaning.value assignment (.unary op operand) := by
  rw [Meaning.values_eq_mapM, List.mapM_cons, List.mapM_nil, Meaning.value]
  cases Meaning.value assignment operand with
  | error error => rfl
  | ok x => exact op.apply_unary harity x

variable (assignment) in
theorem values_bind_binary {op : Operator} (harity : op.arity = .binary)
    (hvalue : op.isSetBelonging = false) (left right : Expr) :
    Meaning.values assignment [left, right] >>= op.apply =
      Meaning.value assignment (.binary op left right) := by
  have hmeaning : Meaning.value assignment (.binary op left right) =
      (do let x ← Meaning.value assignment left
          let y ← Meaning.value assignment right
          Meaning.binary op x y) := by
    cases op with
    | member membership => contradiction
    | _ => rw [Meaning.value]; simp
  rw [hmeaning, Meaning.values_eq_mapM, List.mapM_cons, List.mapM_cons, List.mapM_nil]
  cases Meaning.value assignment left with
  | error error => rfl
  | ok x =>
      cases Meaning.value assignment right with
      | error error => rfl
      | ok y => exact op.apply_binary harity hvalue x y

variable (assignment) in
theorem values_bind_nary {op : Operator} (harity : op.arity = .nary) {operands : List Expr}
    (hne : operands ≠ []) :
    Meaning.values assignment operands >>= op.apply =
      Meaning.value assignment (.nary op operands) := by
  rw [Meaning.value]
  cases hvalues : Meaning.values assignment operands with
  | error error => rfl
  | ok xs =>
      rw [Meaning.values_eq_mapM] at hvalues
      obtain ⟨x, xs, rfl⟩ := List.exists_cons_of_ne_nil (ne_nil_of_mapM hvalues hne)
      exact op.apply_nary harity x xs

variable (assignment) in
/-- The value of a node is that of its operator on the values of its operands. -/
theorem values_bind_operator {e : Expr} {op : Operator} (hroot : e.WellPlaced)
    (hop : e.operator? = some op) (hvalue : op.isSetBelonging = false) :
    Meaning.values assignment e.children >>= op.apply = Meaning.value assignment e := by
  cases e with
  | unary op' operand =>
      cases hop
      exact values_bind_unary assignment hroot.1 operand
  | binary op' left right =>
      cases hop
      exact values_bind_binary assignment hroot.1 hvalue left right
  | nary op' operands =>
      cases hop
      exact values_bind_nary assignment hroot.1 hroot.2.1
  | _ => cases hop

/-- All three parts of a conditional are evaluated, the condition selects. -/
theorem mapM_bind_selection {f : Expr → Except EvalError Operand}
    {condition ifTrue ifFalse : Expr}
    (hparts : ∀ e ∈ [condition, ifTrue, ifFalse],
      f e = (Meaning.value assignment e).map .value) :
    [condition, ifTrue, ifFalse].mapM f >>= selection =
      (Meaning.value assignment (.ifThenElse condition ifTrue ifFalse)).map .value := by
  rw [mapM_of_values hparts, Meaning.values_eq_mapM, List.mapM_cons, List.mapM_cons,
    List.mapM_cons, List.mapM_nil, Meaning.value]
  cases Meaning.value assignment condition with
  | error error => rfl
  | ok x =>
      cases Meaning.value assignment ifTrue with
      | error error => rfl
      | ok y =>
          cases Meaning.value assignment ifFalse with
          | error error => rfl
          | ok z =>
              show Except.ok (Operand.value (if Integer.truthy x then y else z)) =
                Except.ok (Operand.value (if x ≠ 0 then y else z))
              simp only [Integer.truthy_iff]

/-- A set is made of the values of its elements. -/
theorem mapM_bind_elements {f : Expr → Except EvalError Operand} {elements : List Expr}
    (helements : ∀ e ∈ elements, f e = (Meaning.value assignment e).map .value) :
    elements.mapM f >>= combine assignment (.set elements.length) =
      Meaning.operand assignment (.set elements) := by
  rw [mapM_of_values helements, Meaning.operand]
  cases Meaning.values assignment elements with
  | error error => rfl
  | ok xs =>
      show Operand.toValues (xs.map .value) >>= _ = _
      rw [toValues_map_value]
      rfl

/-- All operators but the set-belonging ones are applied to values. -/
theorem combine_eq_operation {e : Expr} {op : Operator} (hop : e.operator? = some op)
    (hvalue : op.isSetBelonging = false) : combine assignment e.label = operation op := by
  cases e with
  | unary op' operand =>
      cases hop
      rfl
  | binary op' left right =>
      cases hop
      cases op with
      | member membership => contradiction
      | _ => rfl
  | nary op' operands =>
      cases hop
      rfl
  | _ => cases hop

/-- A range and a set are asked whether they contain the element. -/
theorem mapM_bind_membership {f : Expr → Except EvalError Operand} {element collection : Expr}
    (op : SetOp) (helement : f element = (Meaning.value assignment element).map .value)
    (hcollection : f collection = Meaning.operand assignment collection)
    (hkind : collection.isCollection) :
    [element, collection].mapM f >>= membership op =
      (Meaning.value assignment (.binary (.member op) element collection)).map .value := by
  have hmember : ∀ (b : Bool), Integer.ofBool (b == (op == .belongs)) =
      Meaning.indicator (b = true ↔ op = .belongs) := by
    intro b
    apply Integer.ofBool_eq_indicator
    rw [beq_iff_eq, Bool.eq_iff_iff, beq_iff_eq]
  rw [List.mapM_cons, List.mapM_cons, List.mapM_nil, helement, hcollection, Meaning.value]
  cases Meaning.value assignment element with
  | error error => rfl
  | ok x =>
      cases collection with
      | range lo hi =>
          show Except.ok (Operand.value _) = Except.ok (Operand.value _)
          rw [hmember, Operand.contains_range]
      | set elements =>
          rw [Meaning.operand, Meaning.members]
          cases Meaning.values assignment elements with
          | error error => rfl
          | ok xs =>
              show Except.ok (Operand.value _) = Except.ok (Operand.value _)
              rw [hmember, Operand.contains_set]
      | _ => contradiction

/-- The operand of a well-formed tree is what the machine combines from those of
its children, at every node. -/
theorem value_reduction {e : Expr} (h : e.WellFormed) :
    (reduction assignment).value e = Meaning.operand assignment e := by
  induction e using Expr.childInduction with
  | step e ih =>
      have hoperand : ∀ child ∈ e.children,
          (reduction assignment).value child = Meaning.operand assignment child :=
        fun child hmem => ih child hmem (h.child hmem)
      have hvalue : ∀ child ∈ e.children, ¬ child.isCollection →
          (reduction assignment).value child = (Meaning.value assignment child).map .value := by
        intro child hmem hkind
        rw [hoperand child hmem, Meaning.operand_of_not_collection assignment hkind]
      have hroot := h.wellPlaced
      rw [Reduction.value_eq]
      have hoperator : ∀ op, e.operator? = some op → op.isSetBelonging = false →
          e.children.mapM (reduction assignment).value >>= (reduction assignment).combine e.label =
            Meaning.operand assignment e := by
        intro op hop hset
        have hes := fun child hmem =>
          hvalue child hmem (hroot.not_isCollection hop hset child hmem)
        have hcombine : (reduction assignment).combine e.label = operation op :=
          combine_eq_operation hop hset
        rw [hcombine, mapM_bind_operation op hes, values_bind_operator assignment hroot hop hset,
          Meaning.operand_of_not_collection assignment (Expr.not_isCollection_of_operator hop)]
      cases e with
      | constant n => rfl
      | range lo hi => rfl
      | var id =>
          show combine assignment (.var id) [] = (Meaning.value assignment (.var id)).map .value
          rw [combine, Meaning.value]
          cases assignment id <;> rfl
      | unary op operand =>
          exact hoperator op rfl (Expr.isSetBelonging_of_arity (by simp [hroot.1]))
      | binary op left right =>
          by_cases hmember : right.isCollection
          · obtain ⟨membership, rfl⟩ := hroot.2.2.mp hmember
            exact mapM_bind_membership membership (hvalue left (by simp [Expr.children]) hroot.2.1)
              (hoperand right (by simp [Expr.children])) hmember
          · refine hoperator op rfl ?_
            rw [hroot.isSetBelonging_eq, ← Bool.not_eq_true]
            exact hmember
      | nary op operands =>
          exact hoperator op rfl (Expr.isSetBelonging_of_arity (by simp [hroot.1]))
      | ifThenElse condition ifTrue ifFalse =>
          obtain ⟨hcondition, hifTrue, hifFalse⟩ := hroot
          refine mapM_bind_selection fun child hmem => hvalue child hmem ?_
          simp only [List.mem_cons, List.not_mem_nil, or_false] at hmem
          rcases hmem with rfl | rfl | rfl
          · exact hcondition
          · exact hifTrue
          · exact hifFalse
      | set elements =>
          exact mapM_bind_elements fun child hmem => hvalue child hmem (hroot child hmem)

end Eval

/-- Evaluation gives the value that the recursion over the tree gives, or the
failure at which the recursion stops. -/
theorem evaluate_eq_value (assignment : Assignment) (e : Expr) (hobtainable : Obtainable e)
    (hvalue : e.isCollection = false) :
    evaluate assignment e = Meaning.value assignment e := by
  have hoperand : (Eval.reduction assignment).value e =
      (Meaning.value assignment e).map .value := by
    rw [Eval.value_reduction (obtainable_iff.mp hobtainable)]
    exact Meaning.operand_of_not_collection assignment (by simp [hvalue])
  obtain ⟨left, hwalk⟩ := (Eval.reduction assignment).exists_walk e
  have hfinal := hwalk []
  rw [hoperand] at hfinal
  rw [evaluate, Eval.evaluateWithin, Eval.visitor_eq_reduction, hfinal]
  cases Meaning.value assignment e <;> rfl

/-- A division by zero in the branch that the condition does not select. -/
def guardedQuotient : Expr :=
  .ifThenElse (.binary (.member .avoids) (.var "y") (.set [.constant 0, .var "y"]))
    (.binary (.arith .div) (.var "x") (.var "y")) (.nary (.arith .add) [.var "x", .constant 1])

/-- No branch is passed over. -/
theorem evaluate_guardedQuotient :
    Obtainable guardedQuotient ∧ guardedQuotient.isCollection = false ∧
      evaluate (fun id => if id = "x" then some 7 else some 0) guardedQuotient =
        .error .divisionByZero := by
  have hobtainable : Obtainable guardedQuotient := obtainable_iff.mpr (by decide)
  have hvalue : guardedQuotient.isCollection = false := rfl
  refine ⟨hobtainable, hvalue, ?_⟩
  rw [evaluate_eq_value _ guardedQuotient hobtainable hvalue]
  rfl

end ConstraintExpr
