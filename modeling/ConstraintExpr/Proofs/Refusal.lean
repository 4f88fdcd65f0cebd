import ConstraintExpr.Proofs.Violation

/-!
# Refusals are precise

A node can break a rule at its operator and at each of its operands
(`Expr.Breaks`). A builder refuses the node for the first rule that is broken, the
operator before the operands and these from left to right
(`Expr.FirstViolation`), and makes exactly the nodes that break none.

* `Expr.violation_eq_some_iff`: the violation found by the checks is the first one;
* `Build.Judges.precise`: what that means for the outcome of a builder and for the
  records that it leaves;
* `Build.precise_refusals`: all checked builders are precise.
-/

namespace ConstraintExpr

/-! ### The rules at a node -/

/-- A place at which a node can break a rule. Operands are told by their numbers. -/
inductive Place where
  | operator
  | operand (i : Nat)
  deriving DecidableEq, Repr

/-- The order of the places of a node. -/
inductive Place.Before : Place → Place → Prop
  | operator {i} : Before .operator (.operand i)
  | operand {i j} : i < j → Before (.operand i) (.operand j)

theorem Place.eq_or_before (a b : Place) : a = b ∨ Before a b ∨ Before b a := by
  cases a with
  | operator =>
      cases b with
      | operator => exact .inl rfl
      | operand j => exact .inr (.inl .operator)
  | operand i =>
      cases b with
      | operator => exact .inr (.inr .operator)
      | operand j =>
          rcases Nat.lt_trichotomy i j with h | rfl | h
          · exact .inr (.inl (.operand h))
          · exact .inl rfl
          · exact .inr (.inr (.operand h))

namespace Expr

/-- The arity that the operator of a node has to have. -/
def shape? : Expr → Option Arity
  | .unary _ _ => some .unary
  | .binary _ _ _ => some .binary
  | .nary _ _ => some .nary
  | .constant _ | .var _ | .ifThenElse _ _ _ | .range _ _ | .set _ => none

/-- Whether a range or a set belongs at the operand with the given number. -/
def wantsCollection : Expr → Nat → Bool
  | .binary op _ _, 1 => op.isSetBelonging
  | _, _ => false

/-- What is wrong at a place of a node. -/
inductive Breaks (e : Expr) : Place → BuildError → Prop
  /-- The operator has another arity than the node, or does not admit as many operands. -/
  | operator {op shape} : e.operator? = some op → e.shape? = some shape →
      ¬ (op.arity = shape ∧ shape.accepts e.children.length) →
        Breaks e .operator (.invalidArity op op.arity e.children.length)
  /-- A range or a set stands where a value belongs. -/
  | value {i child} : e.children[i]? = some child → e.wantsCollection i = false →
      child.isCollection → Breaks e (.operand i) (.misplacedCollection child.kind)
  /-- A value stands where a range or a set belongs. -/
  | collection {i child op} : e.children[i]? = some child → e.wantsCollection i = true →
      e.operator? = some op → ¬ child.isCollection →
        Breaks e (.operand i) (.missingCollection op child.kind)

/-- What is wrong at the first place at which something is. -/
def FirstViolation (e : Expr) (error : BuildError) : Prop :=
  ∃ place, e.Breaks place error ∧
    ∀ earlier, earlier.Before place → ∀ other, ¬ e.Breaks earlier other

/-! ### The checks of a node, place by place -/

/-- What is wrong at the operator. -/
def operatorViolation (e : Expr) : Option BuildError :=
  e.operator?.bind fun op => e.shape?.bind fun shape => op.violation shape e.children.length

/-- What is wrong with `child` at the operand with the given number. -/
def operandViolation (e : Expr) (i : Nat) (child : Expr) : Option BuildError :=
  if e.wantsCollection i then
    if child.isCollection then none
    else e.operator?.map fun op => .missingCollection op child.kind
  else child.valueViolation

theorem violation_eq (e : Expr) :
    e.violation =
      e.operatorViolation.or (e.children.zipIdx.findSome? fun p => e.operandViolation p.2 p.1) := by
  -- where every operand has to be a value, its number does not matter
  have hvalues : ∀ es : List Expr,
      es.zipIdx.findSome? (fun p => p.1.valueViolation) = es.findSome? valueViolation := by
    intro es
    have hmap := List.findSome?_map (p := valueViolation) (f := Prod.fst) (l := es.zipIdx)
    rw [List.zipIdx_map_fst] at hmap
    exact hmap.symm
  cases e with
  | constant | var | range => rfl
  | unary op operand =>
      show _ = (op.violation .unary 1).or ([operand].zipIdx.findSome? fun p => p.1.valueViolation)
      rw [hvalues, findSome?_cons_eq_or, List.findSome?_nil, Option.or_none, violation]
  | binary op left right =>
      show _ = (op.violation .binary 2).or ([(left, 0), (right, 1)].findSome? _)
      rw [findSome?_cons_eq_or, findSome?_cons_eq_or, List.findSome?_nil, Option.or_none]
      rfl
  | nary op operands =>
      show _ = (op.violation .nary operands.length).or
        (operands.zipIdx.findSome? fun p => p.1.valueViolation)
      rw [hvalues, violation]
  | ifThenElse condition ifTrue ifFalse =>
      show _ = [condition, ifTrue, ifFalse].zipIdx.findSome? fun p => p.1.valueViolation
      rw [hvalues, findSome?_cons_eq_or, findSome?_cons_eq_or, findSome?_cons_eq_or,
        List.findSome?_nil, Option.or_none, violation]
  | set elements =>
      show _ = elements.zipIdx.findSome? fun p => p.1.valueViolation
      rw [hvalues, violation]

theorem breaks_operator_iff {e : Expr} {error : BuildError} :
    e.Breaks .operator error ↔ e.operatorViolation = some error := by
  rw [operatorViolation, Option.bind_eq_some_iff]
  constructor
  · rintro ⟨hop, hshape, hbroken⟩
    exact ⟨_, hop, Option.bind_eq_some_iff.mpr ⟨_, hshape, if_neg hbroken⟩⟩
  · rintro ⟨op, hop, h⟩
    obtain ⟨shape, hshape, h⟩ := Option.bind_eq_some_iff.mp h
    rw [Operator.violation, Option.ite_none_left_eq_some] at h
    obtain ⟨hbroken, h⟩ := h
    cases h
    exact .operator hop hshape hbroken

theorem breaks_operand_iff {e : Expr} {i : Nat} {error : BuildError} :
    e.Breaks (.operand i) error ↔
      ∃ child, e.children[i]? = some child ∧ e.operandViolation i child = some error := by
  constructor
  · rintro (_ | ⟨hchild, hwants, hkind⟩ | ⟨hchild, hwants, hop, hkind⟩)
    · refine ⟨_, hchild, ?_⟩
      rw [operandViolation, hwants, if_neg Bool.false_ne_true]
      exact if_pos hkind
    · refine ⟨_, hchild, ?_⟩
      rw [operandViolation, if_pos hwants, if_neg hkind, hop]
      rfl
  · rintro ⟨child, hchild, h⟩
    unfold operandViolation at h
    split at h
    next hwants =>
      rw [Option.ite_none_left_eq_some, Option.map_eq_some_iff] at h
      obtain ⟨hkind, op, hop, rfl⟩ := h
      exact .collection hchild hwants hop hkind
    next hwants =>
      rw [valueViolation, Option.ite_none_right_eq_some] at h
      obtain ⟨hkind, h⟩ := h
      cases h
      exact .value hchild (Bool.eq_false_iff.mpr hwants) hkind

/-- At most one thing is wrong at a place. -/
theorem Breaks.unique {e : Expr} {place : Place} {error other : BuildError}
    (herror : e.Breaks place error) (hother : e.Breaks place other) : error = other := by
  cases place with
  | operator =>
      rw [breaks_operator_iff] at herror hother
      exact Option.some.inj (herror.symm.trans hother)
  | operand i =>
      obtain ⟨child, hchild, herror⟩ := breaks_operand_iff.mp herror
      obtain ⟨child', hchild', hother⟩ := breaks_operand_iff.mp hother
      obtain rfl : child = child' := Option.some.inj (hchild.symm.trans hchild')
      exact Option.some.inj (herror.symm.trans hother)

theorem FirstViolation.unique {e : Expr} {error other : BuildError}
    (herror : e.FirstViolation error) (hother : e.FirstViolation other) : error = other := by
  obtain ⟨place, hbreaks, hfirst⟩ := herror
  obtain ⟨place', hbreaks', hfirst'⟩ := hother
  rcases place.eq_or_before place' with rfl | hbefore | hbefore
  · exact hbreaks.unique hbreaks'
  · exact absurd hbreaks (hfirst' place hbefore error)
  · exact absurd hbreaks' (hfirst place' hbefore other)

/-! ### The checks find the first violation -/

theorem not_breaks_of_violation_eq_none {e : Expr} (h : e.violation = none) (place : Place)
    (error : BuildError) : ¬ e.Breaks place error := by
  rw [violation_eq, Option.or_eq_none_iff, List.findSome?_eq_none_iff] at h
  obtain ⟨hoperator, hoperands⟩ := h
  cases place with
  | operator =>
      rw [breaks_operator_iff, hoperator]
      exact nofun
  | operand i =>
      rw [breaks_operand_iff]
      rintro ⟨child, hchild, hbroken⟩
      rw [hoperands (child, i) (List.mem_zipIdx_iff_getElem?.mpr hchild)] at hbroken
      cases hbroken

/-- A search through a numbered list finds something at the first place where there is
anything to be found. -/
theorem exists_of_findSome?_zipIdx {α β : Type} {f : α × Nat → Option β} {as : List α} {b : β}
    (h : as.zipIdx.findSome? f = some b) :
    ∃ i a, as[i]? = some a ∧ f (a, i) = some b ∧
      ∀ j < i, ∀ c, as[j]? = some c → f (c, j) = none := by
  obtain ⟨before, found, after, hsplit, hfound, hbefore⟩ := List.findSome?_eq_some_iff.mp h
  have hnumbered : ∀ j : Nat, (as[j]?).map (fun a => (a, j)) = (before ++ found :: after)[j]? := by
    intro j
    rw [← hsplit, List.getElem?_zipIdx, Nat.zero_add]
  have hhere := hnumbered before.length
  rw [List.getElem?_append_right (Nat.le_refl _), Nat.sub_self] at hhere
  obtain ⟨a, ha, rfl⟩ := Option.map_eq_some_iff.mp hhere
  refine ⟨before.length, a, ha, hfound, fun j hj c hc => hbefore (c, j) ?_⟩
  have hearlier := hnumbered j
  rw [hc, List.getElem?_append_left hj] at hearlier
  exact List.mem_of_getElem? hearlier.symm

theorem firstViolation_of_violation {e : Expr} {error : BuildError} (h : e.violation = some error) :
    e.FirstViolation error := by
  rw [violation_eq, Option.or_eq_some_iff] at h
  rcases h with h | ⟨hoperator, h⟩
  · exact ⟨.operator, breaks_operator_iff.mpr h, fun earlier hearlier => nomatch hearlier⟩
  · obtain ⟨i, child, hchild, hbroken, hbefore⟩ := exists_of_findSome?_zipIdx h
    refine ⟨.operand i, breaks_operand_iff.mpr ⟨child, hchild, hbroken⟩, ?_⟩
    intro earlier hearlier other hother
    cases hearlier with
    | operator =>
        rw [breaks_operator_iff, hoperator] at hother
        cases hother
    | operand hlt =>
        obtain ⟨c, hc, hother⟩ := breaks_operand_iff.mp hother
        rw [hbefore _ hlt c hc] at hother
        cases hother

/-- The checks find the first violation. -/
theorem violation_eq_some_iff {e : Expr} {error : BuildError} :
    e.violation = some error ↔ e.FirstViolation error := by
  constructor
  · exact firstViolation_of_violation
  · intro h
    cases hviolation : e.violation with
    | none =>
        obtain ⟨place, hbreaks, _⟩ := h
        exact absurd hbreaks (not_breaks_of_violation_eq_none hviolation place error)
    | some found => rw [(firstViolation_of_violation hviolation).unique h]

/-- A node is well placed when nothing is wrong at any of its places. -/
theorem wellPlaced_iff_not_breaks {e : Expr} :
    e.WellPlaced ↔ ∀ place error, ¬ e.Breaks place error := by
  rw [← violation_eq_none_iff]
  constructor
  · exact not_breaks_of_violation_eq_none
  · intro h
    cases hviolation : e.violation with
    | none => rfl
    | some found =>
        obtain ⟨place, hbreaks, _⟩ := firstViolation_of_violation hviolation
        exact absurd hbreaks (h place found)

end Expr

/-! ### The builders -/

namespace Build

/-- The builder makes exactly the node if nothing is wrong with it, and leaves no record.
Otherwise the first violation is the error, and leaves one record of its own. -/
structure Precise (build : Build Expr) (node : Expr) : Prop where
  ok_iff : ∀ journal tree left, build.runWith journal = (.ok tree, left) ↔
    (∀ place error, ¬ node.Breaks place error) ∧ tree = node ∧ left = journal
  error_iff : ∀ journal error left, build.runWith journal = (.error error, left) ↔
    node.FirstViolation error ∧ left = journal.push (.event error.event)

theorem Judges.precise {build : Build Expr} {node : Expr} (h : build.Judges node.violation node) :
    build.Precise node where
  ok_iff journal tree left := by
    rw [h journal, ← Expr.wellPlaced_iff_not_breaks, ← Expr.violation_eq_none_iff]
    cases node.violation <;> simp [eq_comm]
  error_iff journal error left := by
    rw [h journal, ← Expr.violation_eq_some_iff]
    cases node.violation with
    | none => simp
    | some found =>
        simp only [Prod.mk.injEq, Except.error.injEq, Option.some.injEq]
        constructor
        · rintro ⟨rfl, rfl⟩
          exact ⟨rfl, rfl⟩
        · rintro ⟨rfl, rfl⟩
          exact ⟨rfl, rfl⟩

end Build

theorem BuildError.level_event (error : BuildError) : error.event.level = .debug := by
  cases error <;> rfl

/-- Every checked builder refuses a node for the first rule that is broken at it, with one
record for those who look for faults, and makes all other nodes as they were asked for. -/
theorem Build.precise_refusals :
    (∀ e : Expr, e.WellPlaced ↔ ∀ place error, ¬ e.Breaks place error) ∧
      (∀ error : BuildError, error.event.level = .debug) ∧
      (∀ op operand, (Build.unary op operand).Precise (.unary op operand)) ∧
      (∀ op left right, (Build.binary op left right).Precise (.binary op left right)) ∧
      (∀ op operands, (Build.nary op operands).Precise (.nary op operands)) ∧
      (∀ condition ifTrue ifFalse, (Build.ifThenElse condition ifTrue ifFalse).Precise
        (.ifThenElse condition ifTrue ifFalse)) ∧
      ∀ elements, (Build.set elements).Precise (.set elements) :=
  ⟨fun _ => Expr.wellPlaced_iff_not_breaks, BuildError.level_event,
    fun op operand => (judges_unary op operand).precise,
    fun op left right => (judges_binary op left right).precise,
    fun op operands => (judges_nary op operands).precise,
    fun condition ifTrue ifFalse => (judges_ifThenElse condition ifTrue ifFalse).precise,
    fun elements => (judges_set elements).precise⟩

example : (Build.binary (.arith .add) (.set []) (.range 0 1)).result =
    .error (.invalidArity (.arith .add) .nary 2) := rfl

end ConstraintExpr
