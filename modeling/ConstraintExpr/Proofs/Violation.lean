import ConstraintExpr.Build.Keyword
import ConstraintExpr.Proofs.WellFormed

/-!
# What the builders refuse

A builder returns the node that it was asked for unless the node breaks a rule
at its root, and then the error is the first violation.

* `Expr.violation` is the first violation at the root of a tree, and there is
  none exactly when the root is well placed (`Expr.violation_eq_none_iff`);
* `Build.Judges` says of a builder that it goes by a violation, and checks that
  follow each other go by the first one (`Build.Judges.bind`);
* `Build.judges_unary` and its siblings say that the builders go by the
  violation at the root of their node.
-/

namespace ConstraintExpr

/-! ### Violations -/

/-- Of a list, the first violation is that of the head if there is one. -/
theorem findSome?_cons_eq_or {α β : Type} (f : α → Option β) (a : α) (as : List α) :
    (a :: as).findSome? f = (f a).or (as.findSome? f) := by
  rw [List.findSome?_cons]
  cases f a <;> rfl

/-- The record that a refusal leaves. -/
def BuildError.event : BuildError → Event
  | .invalidArity op expected found => .mismatchedArity op expected found
  | .misplacedCollection kind => .misplacedCollection kind
  | .missingCollection op found => .missingCollection op found

/-- The operator has another arity than the node, or does not admit the number of
operands. -/
def Operator.violation (op : Operator) (shape : Arity) (found : Nat) : Option BuildError :=
  if op.arity = shape ∧ shape.accepts found then none else some (.invalidArity op op.arity found)

namespace Expr

/-- A range or a set where a value belongs. -/
def valueViolation (e : Expr) : Option BuildError :=
  if e.isCollection then some (.misplacedCollection e.kind) else none

/-- The right operand does not suit the operator. -/
def rightViolation (op : Operator) (e : Expr) : Option BuildError :=
  if op.isSetBelonging then
    if e.isCollection then none else some (.missingCollection op e.kind)
  else e.valueViolation

/-- The first violation at the root of a tree: the operator comes first, then the
operands from left to right. -/
def violation : Expr → Option BuildError
  | .constant _ | .var _ | .range _ _ => none
  | .unary op operand => (op.violation .unary 1).or operand.valueViolation
  | .binary op left right =>
      (op.violation .binary 2).or (left.valueViolation.or (rightViolation op right))
  | .nary op operands =>
      (op.violation .nary operands.length).or (operands.findSome? valueViolation)
  | .ifThenElse condition ifTrue ifFalse =>
      condition.valueViolation.or (ifTrue.valueViolation.or ifFalse.valueViolation)
  | .set elements => elements.findSome? valueViolation

theorem valueViolation_eq_none_iff {e : Expr} :
    e.valueViolation = none ↔ ¬ e.isCollection := by
  unfold valueViolation
  by_cases h : e.isCollection <;> simp [h]

theorem rightViolation_eq_none_iff {op : Operator} {e : Expr} :
    rightViolation op e = none ↔ (e.isCollection ↔ ∃ membership, op = .member membership) := by
  unfold rightViolation valueViolation
  rw [← isSetBelonging_iff]
  by_cases hop : op.isSetBelonging <;> by_cases h : e.isCollection <;> simp [hop, h]

theorem operatorViolation_eq_none_iff {op : Operator} {shape : Arity} {found : Nat} :
    op.violation shape found = none ↔ op.arity = shape ∧ shape.accepts found := by
  unfold Operator.violation
  by_cases h : op.arity = shape ∧ shape.accepts found <;> simp [h]

/-- There is no violation at the root exactly when the root is well placed. -/
theorem violation_eq_none_iff {e : Expr} : e.violation = none ↔ e.WellPlaced := by
  cases e with
  | constant | var | range => simp [violation, WellPlaced]
  | unary op operand =>
      simp [violation, WellPlaced, valueViolation_eq_none_iff, operatorViolation_eq_none_iff,
        Arity.accepts]
  | binary op left right =>
      simp [violation, WellPlaced, valueViolation_eq_none_iff, rightViolation_eq_none_iff,
        operatorViolation_eq_none_iff, Arity.accepts]
  | nary op operands =>
      simp [violation, WellPlaced, valueViolation_eq_none_iff, operatorViolation_eq_none_iff,
        Arity.accepts, List.findSome?_eq_none_iff, Nat.one_le_iff_ne_zero, and_assoc]
  | ifThenElse condition ifTrue ifFalse =>
      simp [violation, WellPlaced, valueViolation_eq_none_iff]
  | set elements =>
      simp [violation, WellPlaced, valueViolation_eq_none_iff, List.findSome?_eq_none_iff]

end Expr

/-! ### Running the builders -/

namespace Build

variable {α β : Type}

theorem runWith_bind (build : Build α) (next : α → Build β) (journal : Journal) :
    (build >>= next).runWith journal =
      match build.runWith journal with
      | (.ok a, journal) => (next a).runWith journal
      | (.error error, journal) => (.error error, journal) := by
  show (ExceptT.bindCont next (build.runWith journal).1).run (build.runWith journal).2 = _
  rcases build.runWith journal with ⟨_ | _, _⟩ <;> rfl

/-- The builder returns `a` unless there is a violation, which it records and
refuses `a` for. -/
def Judges (build : Build α) (violation : Option BuildError) (a : α) : Prop :=
  ∀ journal, build.runWith journal =
    match violation with
    | none => (.ok a, journal)
    | some error => (.error error, journal.push (.event error.event))

theorem judges_pure (a : α) : (pure a : Build α).Judges none a := fun _ => rfl

/-- Of two builders one after the other, the violation of the first one comes
first. -/
theorem Judges.bind {build : Build α} {next : α → Build β} {first second : Option BuildError}
    {a : α} {b : β} (hbuild : build.Judges first a) (hnext : (next a).Judges second b) :
    (build >>= next).Judges (first.or second) b := by
  intro journal
  rw [runWith_bind, hbuild journal]
  cases first with
  | none => exact hnext journal
  | some error => rfl

theorem judges_checkArity (op : Operator) (shape : Arity) (found : Nat) :
    (checkArity op shape found).Judges (op.violation shape found) () := by
  intro journal
  unfold checkArity Operator.violation
  by_cases h : op.arity = shape ∧ shape.accepts found
  · rw [if_pos h, if_pos h]
    rfl
  · rw [if_neg h, if_neg h]
    rfl

theorem judges_checkValue (e : Expr) : (checkValue e).Judges e.valueViolation () := by
  intro journal
  unfold checkValue Expr.valueViolation
  by_cases h : e.isCollection = true
  · rw [if_pos h, if_pos h]
    rfl
  · rw [if_neg h, if_neg h]
    rfl

theorem judges_checkValues (es : List Expr) :
    (checkValues es).Judges (es.findSome? Expr.valueViolation) () := by
  induction es with
  | nil => exact judges_pure ()
  | cons e es ih =>
      rw [findSome?_cons_eq_or]
      exact (judges_checkValue e).bind ih

theorem judges_checkCollection (op : Operator) (e : Expr) :
    (checkCollection op e).Judges
      (if e.isCollection then none else some (.missingCollection op e.kind)) () := by
  intro journal
  unfold checkCollection
  by_cases h : e.isCollection = true
  · rw [if_pos h, if_pos h]
    rfl
  · rw [if_neg h, if_neg h]
    rfl

/-- The operator decides how the right operand is checked. -/
theorem judges_checkRight (op : Operator) (e : Expr) {next : Unit → Build α}
    {second : Option BuildError} {a : α} (hnext : (next ()).Judges second a) :
    (if op.isSetBelonging then checkCollection op e >>= next else checkValue e >>= next).Judges
      ((Expr.rightViolation op e).or second) a := by
  unfold Expr.rightViolation
  by_cases hop : op.isSetBelonging = true
  · rw [if_pos hop, if_pos hop]
    exact (judges_checkCollection op e).bind hnext
  · rw [if_neg hop, if_neg hop]
    exact (judges_checkValue e).bind hnext

theorem judges_unary (op : Operator) (operand : Expr) :
    (unary op operand).Judges (Expr.unary op operand).violation (.unary op operand) := by
  have h : (unary op operand).Judges
      ((op.violation .unary 1).or (operand.valueViolation.or none)) (.unary op operand) :=
    (judges_checkArity op .unary 1).bind ((judges_checkValue operand).bind (judges_pure _))
  rw [Option.or_none] at h
  exact h

theorem judges_binary (op : Operator) (left right : Expr) :
    (binary op left right).Judges (Expr.binary op left right).violation
      (.binary op left right) := by
  have h : (binary op left right).Judges
      ((op.violation .binary 2).or
        (left.valueViolation.or ((Expr.rightViolation op right).or none)))
      (.binary op left right) :=
    (judges_checkArity op .binary 2).bind ((judges_checkValue left).bind
      (judges_checkRight op right (judges_pure _)))
  rw [Option.or_none] at h
  exact h

theorem judges_nary (op : Operator) (operands : List Expr) :
    (nary op operands).Judges (Expr.nary op operands).violation (.nary op operands) := by
  have h : (nary op operands).Judges
      ((op.violation .nary operands.length).or
        ((operands.findSome? Expr.valueViolation).or none)) (.nary op operands) :=
    (judges_checkArity op .nary operands.length).bind
      ((judges_checkValues operands).bind (judges_pure _))
  rw [Option.or_none] at h
  exact h

theorem judges_ifThenElse (condition ifTrue ifFalse : Expr) :
    (ifThenElse condition ifTrue ifFalse).Judges
      (Expr.ifThenElse condition ifTrue ifFalse).violation
      (.ifThenElse condition ifTrue ifFalse) := by
  have h : (ifThenElse condition ifTrue ifFalse).Judges
      (condition.valueViolation.or (ifTrue.valueViolation.or (ifFalse.valueViolation.or none)))
      (.ifThenElse condition ifTrue ifFalse) :=
    (judges_checkValue condition).bind ((judges_checkValue ifTrue).bind
      ((judges_checkValue ifFalse).bind (judges_pure _)))
  rw [Option.or_none] at h
  exact h

theorem judges_set (elements : List Expr) :
    (set elements).Judges (Expr.set elements).violation (.set elements) := by
  have h : (set elements).Judges ((elements.findSome? Expr.valueViolation).or none)
      (.set elements) :=
    (judges_checkValues elements).bind (judges_pure _)
  rw [Option.or_none] at h
  exact h

/-- A builder succeeds exactly when there is no violation, with the tree that it
was asked for. -/
theorem Judges.result_eq_ok_iff {build : Build α} {violation : Option BuildError} {a b : α}
    (h : build.Judges violation a) : build.result = .ok b ↔ violation = none ∧ b = a := by
  unfold result
  rw [h #[]]
  cases violation <;> simp [eq_comm]

theorem Judges.result_eq_error_iff {build : Build α} {violation : Option BuildError} {a : α}
    {error : BuildError} (h : build.Judges violation a) :
    build.result = .error error ↔ violation = some error := by
  unfold result
  rw [h #[]]
  cases violation <;> simp

theorem Judges.bind_result_eq_ok_iff {build : Build α} {next : α → Build β}
    {violation : Option BuildError} {a : α} {b : β} (h : build.Judges violation a) :
    (build >>= next).result = .ok b ↔ violation = none ∧ (next a).result = .ok b := by
  unfold result
  rw [runWith_bind, h #[]]
  cases violation <;> simp

end Build

end ConstraintExpr
