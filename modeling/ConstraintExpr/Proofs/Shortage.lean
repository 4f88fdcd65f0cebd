import ConstraintExpr.Proofs.OperandStack

/-!
# Reports of missing operands

No walk lets a node find fewer operands than it has children, but a callback can be
used on any stack. An operator that cannot be applied to the values it has got reports
how many these are (`Operator.apply_eq_invalidArity_iff`). A set-belonging operator that
lacks an operand reports that it has got none, even when it has taken one
(`Eval.membership_eq_invalidArity_iff`).

`Eval.visit_eq_invalidArity_iff` puts both together for the nodes that the constructors
build, and `Eval.visit_belongs_single` is the least stack on which the two kinds of
report differ.
-/

namespace ConstraintExpr

/-! ### Operators -/

theorem ArithOp.apply_of_not_accepts {op : ArithOp} {xs : List Int}
    (h : op.arity.accepts xs.length = false) :
    op.apply xs = .error (.invalidArity (.arith op) xs.length) := by
  revert h
  fun_cases ArithOp.apply op xs
  case case15 => exact fun _ => rfl
  all_goals
    intro h
    simp [ArithOp.arity, Arity.accepts] at h

theorem BoolOp.apply_of_not_accepts {op : BoolOp} {xs : List Int}
    (h : op.arity.accepts xs.length = false) :
    op.apply xs = .error (.invalidArity (.logic op) xs.length) := by
  revert h
  fun_cases BoolOp.apply op xs
  case case7 => exact fun _ => rfl
  all_goals
    intro h
    simp [BoolOp.arity, Arity.accepts] at h

theorem RelOp.apply_of_not_accepts {op : RelOp} {xs : List Int}
    (h : Arity.binary.accepts xs.length = false) :
    op.apply xs = .error (.invalidArity (.rel op) xs.length) := by
  revert h
  fun_cases RelOp.apply op xs
  case case1 =>
    intro h
    cases h
  case case2 => exact fun _ => rfl

/-- An operator on values finds fault with their number if its arity does not accept it,
and reports this number. A set-belonging operator does so whatever the number is. -/
theorem Operator.apply_eq_invalidArity_iff {op named : Operator} {xs : List Int} {found : Nat} :
    op.apply xs = .error (.invalidArity named found) ↔
      named = op ∧ found = xs.length ∧
        (op.isSetBelonging = false → op.arity.accepts xs.length = false) := by
  constructor
  · intro h
    rcases Operator.apply_failure h with h | ⟨herror, hnot⟩
    · exact h.elim
    · cases herror
      exact ⟨rfl, rfl, fun hvalue => Bool.eq_false_iff.mpr (hnot hvalue)⟩
  · rintro ⟨rfl, rfl, h⟩
    cases named with
    | arith op => exact ArithOp.apply_of_not_accepts (h rfl)
    | logic op => exact BoolOp.apply_of_not_accepts (h rfl)
    | rel op => exact RelOp.apply_of_not_accepts (h rfl)
    | member op => rfl

theorem Operand.exists_toValues_eq_ok_iff {operands : List Operand} :
    (∃ xs, toValues operands = .ok xs) ↔
      ∀ operand ∈ operands, operand.isCollection = false := by
  constructor
  · rintro ⟨xs, hxs⟩ operand hmem
    obtain ⟨n, hn, _⟩ := exists_ok_of_mapM hxs hmem
    rw [toValue_eq_ok_iff] at hn
    subst hn
    rfl
  · intro h
    refine exists_mapM_eq_ok fun operand hmem => ?_
    obtain ⟨n, rfl⟩ := exists_value (Bool.eq_false_iff.mp (h operand hmem))
    exact ⟨n, rfl⟩

namespace Eval

variable {assignment : Assignment} {named : Operator} {operands : List Operand} {found : Nat}

/-! ### Nodes -/

/-- The operands are read as values before they are counted. -/
theorem operation_eq_invalidArity_iff {op : Operator} :
    operation op operands = .error (.invalidArity named found) ↔
      named = op ∧ found = operands.length ∧
        (op.isSetBelonging = false → op.arity.accepts operands.length = false) ∧
        ∀ operand ∈ operands, operand.isCollection = false := by
  rw [← Operand.exists_toValues_eq_ok_iff]
  constructor
  · intro h
    rcases bind_eq_error_iff.mp h with hread | ⟨xs, hxs, hrest⟩
    · obtain ⟨kind, hkind⟩ := Operand.toValues_failure hread
      cases hkind
    · rcases bind_eq_error_iff.mp hrest with happly | ⟨n, _, hdone⟩
      · obtain ⟨hnamed, hfound, hnot⟩ := Operator.apply_eq_invalidArity_iff.mp happly
        rw [length_of_mapM hxs] at hfound hnot
        exact ⟨hnamed, hfound, hnot, xs, hxs⟩
      · cases hdone
  · rintro ⟨hnamed, hfound, hnot, xs, hxs⟩
    rw [← length_of_mapM hxs] at hfound hnot
    have happly := Operator.apply_eq_invalidArity_iff.mpr ⟨hnamed, hfound, hnot⟩
    rw [operation, hxs, ok_bind, happly, error_bind]

/-- Membership asks for two operands before it reads any, and reports none. -/
theorem membership_eq_invalidArity_iff {op : SetOp} :
    membership op operands = .error (.invalidArity named found) ↔
      named = .member op ∧ found = 0 ∧ operands.length ≠ 2 := by
  fun_cases membership op operands
  case case1 element collection =>
    simp only [List.length_cons, List.length_nil, ne_eq, not_true_eq_false, and_false, iff_false]
    intro h
    rcases bind_eq_error_iff.mp h with h | ⟨n, _, h⟩
    · obtain ⟨_, kind, h⟩ := Operand.toValue_failure h
      cases h
    · cases h
  case case2 hshape =>
    have hlength : operands.length ≠ 2 := by
      intro h
      obtain ⟨element, collection, rfl⟩ := List.length_eq_two.mp h
      exact hshape element collection rfl
    simp [hlength, eq_comm]

theorem combine_eq_membership {e : Expr} {op : SetOp} (hplaced : e.WellPlaced)
    (hop : e.operator? = some (.member op)) : combine assignment e.label = membership op := by
  cases e with
  | binary op' left right =>
      cases hop
      rfl
  | unary op' operand =>
      cases hop
      cases hplaced.1
  | nary op' operands =>
      cases hop
      cases hplaced.1
  | _ => cases hop

/-- Only operators find fault with the number of their operands. -/
theorem operator?_of_invalidArity {e : Expr}
    (h : combine assignment e.label operands = .error (.invalidArity named found)) :
    e.operator? = some named := by
  have hoperation : ∀ op, operation op operands = .error (.invalidArity named found) →
      some op = some named := by
    intro op h
    rw [(operation_eq_invalidArity_iff.mp h).1]
  cases e with
  | constant n => cases h
  | range lo hi => cases h
  | var id =>
      obtain ⟨_, herror⟩ := combine_var_failure h
      cases herror
  | unary op operand => exact hoperation op h
  | binary op left right =>
      cases op with
      | member op => exact congrArg some (membership_eq_invalidArity_iff.mp h).1.symm
      | _ => exact hoperation _ h
  | nary op children => exact hoperation op h
  | ifThenElse condition ifTrue ifFalse =>
      rcases bind_eq_error_iff.mp h with hread | ⟨xs, _, hselect⟩
      · obtain ⟨kind, hkind⟩ := Operand.toValues_failure hread
        cases hkind
      · split at hselect <;> cases hselect
  | set elements =>
      rcases bind_eq_error_iff.mp h with hread | ⟨xs, _, hdone⟩
      · obtain ⟨kind, hkind⟩ := Operand.toValues_failure hread
        cases hkind
      · cases hdone

open Reduction

/-- A node that the constructors build finds fault with the number of its operands only
if it has taken fewer of them than it has children. An operator on values does so when
it cannot be applied to as many as it has taken, which are all values, and it reports
their number. A set-belonging operator does so whenever an operand is missing, and
reports none. -/
theorem visit_eq_invalidArity_iff (assignment : Assignment) (e : Expr) (hplaced : e.WellPlaced)
    (stack : List Operand) (op : Operator) (found : Nat) :
    ((visitor assignment).visit e stack).1 = .error (.invalidArity op found) ↔
      e.operator? = some op ∧ (taken e stack).length < e.children.length ∧
        if op.isSetBelonging then found = 0
        else found = (taken e stack).length ∧ op.arity.accepts found = false ∧
          ∀ operand ∈ taken e stack, operand.isCollection = false := by
  have hle := length_taken_le e stack
  rw [visitor_eq_reduction, visit_eq_error_iff]
  by_cases hop : e.operator? = some op
  · cases hset : op.isSetBelonging with
    | true =>
        obtain ⟨inclusion, rfl⟩ := Expr.isSetBelonging_iff.mp hset
        have hcombine : (reduction assignment).combine e.label = membership inclusion :=
          combine_eq_membership hplaced hop
        have hcount : e.children.length = 2 := eq_of_beq (hplaced.accepts hop)
        rw [hcombine, membership_eq_invalidArity_iff, List.length_reverse, hcount]
        simp only [hop, true_and, if_true]
        omega
    | false =>
        have hcombine : (reduction assignment).combine e.label = operation op :=
          combine_eq_operation hop hset
        -- the children of the node are as many as the operator accepts
        have hfewer : op.arity.accepts (taken e stack).length = false →
            (taken e stack).length < e.children.length := by
          intro hnot
          refine Nat.lt_of_le_of_ne hle fun heq => ?_
          rw [heq, hplaced.accepts hop] at hnot
          cases hnot
        rw [hcombine, operation_eq_invalidArity_iff, hset]
        simp only [List.length_reverse, List.mem_reverse, hop, true_and, Bool.false_eq_true,
          if_false, forall_const]
        constructor
        · rintro ⟨rfl, hnot, hvalues⟩
          exact ⟨hfewer hnot, rfl, hnot, hvalues⟩
        · rintro ⟨_, rfl, hnot, hvalues⟩
          exact ⟨rfl, hnot, hvalues⟩
  · exact iff_of_false (fun h => hop (operator?_of_invalidArity h)) fun h => hop h.1

/-- A difference that lacks an operand reports the one that it has taken. -/
theorem visit_sub_single :
    (Expr.binary (.arith .sub) (.var "x") (.var "y")).WellPlaced ∧
      ((visitor fun _ => none).visit (.binary (.arith .sub) (.var "x") (.var "y")) [.value 7]).1 =
        .error (.invalidArity (.arith .sub) 1) :=
  ⟨by decide, (visit_eq_invalidArity_iff _ _ (by decide) _ _ _).mpr ⟨rfl, by decide, by decide⟩⟩

/-- A membership that lacks an operand reports none, although it has taken one. -/
theorem visit_belongs_single :
    (Expr.binary (.member .belongs) (.var "x") (.range 0 9)).WellPlaced ∧
      (taken (.binary (.member .belongs) (.var "x") (.range 0 9)) [Operand.value 7]).length = 1 ∧
      (visitor fun _ => none).visit (.binary (.member .belongs) (.var "x") (.range 0 9))
        [.value 7] = (.error (.invalidArity (.member .belongs) 0), []) :=
  ⟨by decide, rfl, rfl⟩

end Eval

end ConstraintExpr
