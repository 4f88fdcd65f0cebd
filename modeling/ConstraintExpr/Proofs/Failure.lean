import ConstraintExpr.Proofs.Evaluation

/-!
# Why evaluations fail

An operator fails by its arithmetic or for want of operands
(`Operator.apply_failure`), and a node fails because of one of its children or
by itself (`Reduction.value_eq_error_iff`).

* `Eval.combine_error`: whatever the operands of a node are, it fails because of them
  or for want of the value of a variable.
* `Eval.isCollection_of_value`: the operand of a tree is a range or a set if
  and only if the tree is.
* `Eval.value_failure`: where every node is well placed, all operators find the
  values they need, so that only the assignment can be to blame
  (`EvalError.DueTo`).
* `evaluate_eq_bind`: evaluation takes the value of the operand of the tree, and
  `evaluate_failure`, `evaluate_range` and `evaluate_set` say how it fails.
-/

namespace ConstraintExpr

/-- The failures of divisions and powers. -/
def EvalError.Arithmetic : EvalError → Prop
  | .divisionByZero | .negativeExponent | .exponentTooLarge _ => True
  | .unboundVariable _ | .unexpectedCollection _ | .invalidArity _ _ | .traversal _ |
    .integer _ => False

/-- The failures that the assignment is to blame for: a variable has no value, or
the values cannot be divided or raised to a power. -/
def EvalError.DueTo (assignment : Assignment) : EvalError → Prop
  | .unboundVariable id => assignment id = none
  | .divisionByZero | .negativeExponent | .exponentTooLarge _ => True
  | .unexpectedCollection _ | .invalidArity _ _ | .traversal _ | .integer _ => False

theorem EvalError.Arithmetic.dueTo {error : EvalError} (h : error.Arithmetic)
    (assignment : Assignment) : error.DueTo assignment := by
  cases error <;> trivial

/-- The failures that the operands of a node can cause, whatever they are: those of
the arithmetic, a range or a set in the place of a value, and a number of operands
that the node cannot do with. -/
def EvalError.OfOperands : EvalError → Prop
  | .divisionByZero | .negativeExponent | .exponentTooLarge _ | .unexpectedCollection _ |
    .invalidArity _ _ => True
  | .unboundVariable _ | .traversal _ | .integer _ => False

theorem EvalError.Arithmetic.ofOperands {error : EvalError} (h : error.Arithmetic) :
    error.OfOperands := by
  cases error <;> trivial

/-! ### Operators -/

theorem Eval.power_failure {base exponent : Int} {error : EvalError}
    (h : power base exponent = .error error) : error.Arithmetic := by
  rw [power_eq, Meaning.power] at h
  split at h
  · cases h
    trivial
  · split at h
    · cases h
      trivial
    · cases h

/-- The shape of the lists with as many operands as an arity accepts. -/
def Arity.Fits (xs : List Int) : Arity → Prop
  | .unary => ∃ x, xs = [x]
  | .binary => ∃ x y, xs = [x, y]
  | .nary => ∃ x rest, xs = x :: rest

theorem Arity.fits_of_accepts {arity : Arity} {xs : List Int} (h : arity.accepts xs.length) :
    arity.Fits xs := by
  cases arity with
  | unary => exact List.length_eq_one_iff.mp (eq_of_beq h)
  | binary => exact List.length_eq_two.mp (eq_of_beq h)
  | nary => exact List.exists_cons_of_length_pos (of_decide_eq_true h)

theorem ArithOp.apply_failure {op : ArithOp} {xs : List Int} {error : EvalError}
    (h : op.apply xs = .error error) :
    error.Arithmetic ∨
      error = .invalidArity (.arith op) xs.length ∧ ¬ op.arity.accepts xs.length := by
  revert h
  fun_cases ArithOp.apply op xs
  case case5 | case7 =>
    intro h
    cases h
    exact .inl trivial
  case case6 y hy =>
    rw [Integer.quotient_of_ne_zero hy]
    intro h
    cases h
  case case8 y hy =>
    rw [Integer.remainder_of_ne_zero hy]
    intro h
    cases h
  case case9 => exact fun h => .inl (Eval.power_failure h)
  case case15 =>
    -- a list that is accepted fits one of the branches before this one
    intro h
    cases h
    refine .inr ⟨rfl, fun haccepts => ?_⟩
    have hfits := Arity.fits_of_accepts haccepts
    cases op <;> grind [ArithOp.arity, Arity.Fits]
  all_goals
    intro h
    cases h

theorem BoolOp.apply_failure {op : BoolOp} {xs : List Int} {error : EvalError}
    (h : op.apply xs = .error error) :
    error = .invalidArity (.logic op) xs.length ∧ ¬ op.arity.accepts xs.length := by
  revert h
  fun_cases BoolOp.apply op xs
  case case7 =>
    intro h
    cases h
    refine ⟨rfl, fun haccepts => ?_⟩
    have hfits := Arity.fits_of_accepts haccepts
    cases op <;> grind [BoolOp.arity, Arity.Fits]
  all_goals
    intro h
    cases h

theorem RelOp.apply_failure {op : RelOp} {xs : List Int} {error : EvalError}
    (h : op.apply xs = .error error) :
    error = .invalidArity (.rel op) xs.length ∧ ¬ Arity.binary.accepts xs.length := by
  revert h
  fun_cases RelOp.apply op xs
  case case1 =>
    intro h
    cases h
  case case2 hshape =>
    intro h
    cases h
    refine ⟨rfl, fun haccepts => ?_⟩
    obtain ⟨x, y, rfl⟩ := Arity.fits_of_accepts haccepts
    exact hshape x y rfl

/-- An operator fails by its arithmetic, or says how many operands it has got
instead of those that it accepts. -/
theorem Operator.apply_failure {op : Operator} {xs : List Int} {error : EvalError}
    (h : op.apply xs = .error error) :
    error.Arithmetic ∨
      error = .invalidArity op xs.length ∧
        (op.isSetBelonging = false → ¬ op.arity.accepts xs.length) := by
  cases op with
  | arith op => exact (ArithOp.apply_failure h).imp_right (And.imp_right fun hnot _ => hnot)
  | logic op =>
      obtain ⟨herror, hnot⟩ := BoolOp.apply_failure h
      exact .inr ⟨herror, fun _ => hnot⟩
  | rel op =>
      obtain ⟨herror, hnot⟩ := RelOp.apply_failure h
      exact .inr ⟨herror, fun _ => hnot⟩
  | member op =>
      cases h
      exact .inr ⟨rfl, fun hvalue => Bool.noConfusion hvalue⟩

/-! ### Operands -/

namespace Operand

/-- Whether the operand is that of a range or of a set. -/
def isCollection : Operand → Bool
  | .value _ => false
  | .range _ _ | .set _ => true

theorem exists_value {operand : Operand} (h : ¬ operand.isCollection) :
    ∃ n, operand = .value n := by
  cases operand with
  | value n => exact ⟨n, rfl⟩
  | range lo hi => exact absurd rfl h
  | set elements => exact absurd rfl h

theorem toValue_failure {operand : Operand} {error : EvalError}
    (h : operand.toValue = .error error) :
    operand.isCollection ∧ ∃ kind, error = .unexpectedCollection kind := by
  cases operand <;> cases h <;> exact ⟨rfl, _, rfl⟩

theorem toValues_failure {operands : List Operand} {error : EvalError}
    (h : toValues operands = .error error) : ∃ kind, error = .unexpectedCollection kind := by
  obtain ⟨_, operand, _, _, _, hoperand⟩ := mapM_eq_error_iff.mp h
  exact (toValue_failure hoperand).2

end Operand

/-! ### Nodes -/

/-- A node fails as the first of its children that fails, or by itself when none
of them does. -/
theorem Reduction.value_eq_error_iff {α ε : Type} {r : Reduction α ε} {e : Expr} {error : ε} :
    r.value e = .error error ↔
      (∃ before child after, e.children = before ++ child :: after ∧
          (∀ sibling ∈ before, ∃ result, r.value sibling = .ok result) ∧
          r.value child = .error error) ∨
        ∃ results, e.children.mapM r.value = .ok results ∧
          r.combine e.label results = .error error := by
  rw [value_eq, bind_eq_error_iff, mapM_eq_error_iff]

namespace Eval

variable {assignment : Assignment}

theorem isCollection_of_operation {op : Operator} {operands : List Operand} {operand : Operand}
    (h : operation op operands = .ok operand) : operand.isCollection = false := by
  obtain ⟨xs, _, h⟩ := bind_eq_ok_iff.mp h
  obtain ⟨n, _, h⟩ := bind_eq_ok_iff.mp h
  cases h
  rfl

theorem isCollection_of_membership {op : SetOp} {operands : List Operand} {operand : Operand}
    (h : membership op operands = .ok operand) : operand.isCollection = false := by
  unfold membership at h
  split at h
  · obtain ⟨n, _, h⟩ := bind_eq_ok_iff.mp h
    cases h
    rfl
  · cases h

theorem isCollection_of_selection {operands : List Operand} {operand : Operand}
    (h : selection operands = .ok operand) : operand.isCollection = false := by
  obtain ⟨xs, _, h⟩ := bind_eq_ok_iff.mp h
  split at h
  · cases h
    rfl
  · cases h

theorem isCollection_of_combine {label : Label} {operands : List Operand} {operand : Operand}
    (h : combine assignment label operands = .ok operand) :
    operand.isCollection = label.kind.isCollection := by
  cases label with
  | constant n =>
      cases h
      rfl
  | var id =>
      rw [combine] at h
      split at h
      · cases h
        rfl
      · cases h
  | unary op => exact isCollection_of_operation h
  | binary op =>
      cases op with
      | member op => exact isCollection_of_membership h
      | _ => exact isCollection_of_operation h
  | nary op count => exact isCollection_of_operation h
  | ifThenElse => exact isCollection_of_selection h
  | range lo hi =>
      cases h
      rfl
  | set count =>
      obtain ⟨xs, _, h⟩ := bind_eq_ok_iff.mp h
      cases h
      rfl

/-- The operand of a range or a set is a collection, that of any other tree is a
value. -/
theorem isCollection_of_value {e : Expr} {operand : Operand}
    (h : (reduction assignment).value e = .ok operand) :
    operand.isCollection = e.isCollection := by
  rw [Reduction.value_eq] at h
  obtain ⟨operands, _, h⟩ := bind_eq_ok_iff.mp h
  exact isCollection_of_combine h

/-- The operands of trees that are neither ranges nor sets are values. -/
theorem exists_values {es : List Expr} {operands : List Operand}
    (hes : ∀ e ∈ es, ¬ e.isCollection)
    (h : es.mapM (reduction assignment).value = .ok operands) :
    ∃ xs : List Int, operands = xs.map .value ∧ xs.length = es.length := by
  induction mapM_eq_ok_iff.mp h with
  | nil => exact ⟨[], rfl, rfl⟩
  | @cons e operand rest operands hfirst hrest ih =>
      have hkind : ¬ operand.isCollection := by
        rw [isCollection_of_value hfirst]
        exact hes e List.mem_cons_self
      obtain ⟨x, rfl⟩ := Operand.exists_value hkind
      obtain ⟨xs, rfl, hlength⟩ :=
        ih (fun next hnext => hes next (List.mem_cons_of_mem e hnext)) (mapM_eq_ok_iff.mpr hrest)
      exact ⟨x :: xs, rfl, congrArg (· + 1) hlength⟩

theorem combine_var_failure {id : String} {operands : List Operand} {error : EvalError}
    (h : combine assignment (.var id) operands = .error error) :
    assignment id = none ∧ error = .unboundVariable id := by
  rw [combine] at h
  cases hvalue : assignment id with
  | some n =>
      rw [hvalue] at h
      cases h
  | none =>
      rw [hvalue] at h
      cases h
      exact ⟨rfl, rfl⟩

theorem ofOperands_of_operation {op : Operator} {operands : List Operand} {error : EvalError}
    (h : operation op operands = .error error) : error.OfOperands := by
  rcases bind_eq_error_iff.mp h with h | ⟨xs, _, h⟩
  · obtain ⟨_, rfl⟩ := Operand.toValues_failure h
    trivial
  · rcases bind_eq_error_iff.mp h with h | ⟨n, _, h⟩
    · rcases Operator.apply_failure h with h | ⟨rfl, _⟩
      · exact h.ofOperands
      · trivial
    · cases h

theorem ofOperands_of_membership {op : SetOp} {operands : List Operand} {error : EvalError}
    (h : membership op operands = .error error) : error.OfOperands := by
  unfold membership at h
  split at h
  · rcases bind_eq_error_iff.mp h with h | ⟨n, _, h⟩
    · obtain ⟨_, _, rfl⟩ := Operand.toValue_failure h
      trivial
    · cases h
  · cases h
    trivial

theorem ofOperands_of_selection {operands : List Operand} {error : EvalError}
    (h : selection operands = .error error) : error.OfOperands := by
  rcases bind_eq_error_iff.mp h with h | ⟨xs, _, h⟩
  · obtain ⟨_, rfl⟩ := Operand.toValues_failure h
    trivial
  · split at h
    · cases h
    · cases h
      trivial

/-- Whatever operands a node gets, they cause its failure or it is a variable without
a value. -/
theorem combine_error {label : Label} {operands : List Operand} {error : EvalError}
    (h : combine assignment label operands = .error error) :
    error.OfOperands ∨
      ∃ id, label = .var id ∧ assignment id = none ∧ error = .unboundVariable id := by
  cases label with
  | constant n => cases h
  | range lo hi => cases h
  | var id =>
      obtain ⟨hid, rfl⟩ := combine_var_failure h
      exact .inr ⟨id, rfl, hid, rfl⟩
  | unary op => exact .inl (ofOperands_of_operation h)
  | binary op =>
      cases op with
      | member op => exact .inl (ofOperands_of_membership h)
      | _ => exact .inl (ofOperands_of_operation h)
  | nary op count => exact .inl (ofOperands_of_operation h)
  | ifThenElse => exact .inl (ofOperands_of_selection h)
  | set count =>
      rcases bind_eq_error_iff.mp h with h | ⟨xs, _, h⟩
      · obtain ⟨_, rfl⟩ := Operand.toValues_failure h
        exact .inl trivial
      · cases h

/-- An operator that gets as many values as it accepts fails by its arithmetic. -/
theorem operation_failure {op : Operator} {es : List Expr} {operands : List Operand}
    {error : EvalError} (hvalue : op.isSetBelonging = false)
    (haccepts : op.arity.accepts es.length) (hes : ∀ e ∈ es, ¬ e.isCollection)
    (hoperands : es.mapM (reduction assignment).value = .ok operands)
    (h : operation op operands = .error error) : error.Arithmetic := by
  obtain ⟨xs, rfl, hlength⟩ := exists_values hes hoperands
  rw [operation, toValues_map_value, ok_bind] at h
  rcases bind_eq_error_iff.mp h with h | ⟨n, _, h⟩
  · rcases Operator.apply_failure h with h | ⟨_, hnot⟩
    · exact h
    · rw [hlength] at hnot
      exact absurd haccepts (hnot hvalue)
  · cases h

/-- The element finds its value, and the other operand is asked for it. -/
theorem membership_ne_error {op : SetOp} {element collection : Expr} {operands : List Operand}
    {error : EvalError} (hkind : ¬ element.isCollection)
    (hoperands : [element, collection].mapM (reduction assignment).value = .ok operands) :
    membership op operands ≠ .error error := by
  intro h
  obtain ⟨operand, _, helement, hrest, rfl⟩ :=
    List.forall₂_cons_left_iff.mp (mapM_eq_ok_iff.mp hoperands)
  obtain ⟨other, _, _, hnil, rfl⟩ := List.forall₂_cons_left_iff.mp hrest
  obtain rfl := List.forall₂_nil_left_iff.mp hnil
  rw [← isCollection_of_value helement] at hkind
  obtain ⟨n, rfl⟩ := Operand.exists_value hkind
  cases h

/-- By itself, a well-placed node fails only because of the assignment. -/
theorem combine_failure {e : Expr} (hroot : e.WellPlaced) {operands : List Operand}
    (hoperands : e.children.mapM (reduction assignment).value = .ok operands)
    {error : EvalError} (h : combine assignment e.label operands = .error error) :
    error.DueTo assignment := by
  have hoperation : ∀ op, e.operator? = some op → op.isSetBelonging = false →
      error.DueTo assignment := by
    intro op hop hvalue
    rw [combine_eq_operation hop hvalue] at h
    exact (operation_failure hvalue (hroot.accepts hop) (hroot.not_isCollection hop hvalue)
      hoperands h).dueTo assignment
  cases e with
  | constant n => cases h
  | range lo hi => cases h
  | var id =>
      obtain ⟨hid, rfl⟩ := combine_var_failure h
      exact hid
  | unary op operand =>
      exact hoperation op rfl (Expr.isSetBelonging_of_arity (by simp [hroot.1]))
  | binary op left right =>
      -- a collection on the right is not a value, and its operator does not ask for one
      by_cases hmember : right.isCollection
      · obtain ⟨membership, rfl⟩ := hroot.2.2.mp hmember
        exact absurd h (membership_ne_error hroot.2.1 hoperands)
      · refine hoperation op rfl ?_
        rw [hroot.isSetBelonging_eq, ← Bool.not_eq_true]
        exact hmember
  | nary op operands =>
      exact hoperation op rfl (Expr.isSetBelonging_of_arity (by simp [hroot.1]))
  | ifThenElse condition ifTrue ifFalse =>
      obtain ⟨hcondition, hifTrue, hifFalse⟩ := hroot
      have hparts : ∀ part ∈ [condition, ifTrue, ifFalse], ¬ part.isCollection :=
        List.forall_mem_cons.mpr
          ⟨hcondition, List.forall_mem_cons.mpr ⟨hifTrue, List.forall_mem_singleton.mpr hifFalse⟩⟩
      obtain ⟨xs, rfl, hlength⟩ := exists_values hparts hoperands
      obtain ⟨x, y, z, rfl⟩ := List.length_eq_three.mp hlength
      cases h
  | set elements =>
      obtain ⟨xs, rfl, _⟩ := exists_values hroot hoperands
      rw [Expr.label, combine, toValues_map_value] at h
      cases h

/-! ### Trees -/

/-- The operand of a well-formed tree is missing only because of the
assignment. -/
theorem value_failure {e : Expr} (hwellFormed : e.WellFormed) {error : EvalError}
    (h : (reduction assignment).value e = .error error) : error.DueTo assignment := by
  induction e using Expr.childInduction with
  | step e ih =>
      rcases Reduction.value_eq_error_iff.mp h with
        ⟨before, child, after, hchildren, _, hchild⟩ | ⟨operands, hoperands, hnode⟩
      · have hmem : child ∈ e.children := by simp [hchildren]
        exact ih child hmem (hwellFormed.child hmem) hchild
      · exact combine_failure hwellFormed.wellPlaced hoperands hnode

end Eval

/-- Evaluation takes the value of the operand of the tree. -/
theorem evaluate_eq_bind (assignment : Assignment) (e : Expr) :
    evaluate assignment e = (Eval.reduction assignment).value e >>= Operand.toValue := by
  obtain ⟨left, hwalk⟩ := (Eval.reduction assignment).exists_walk e
  have hfinal := hwalk []
  rw [evaluate, Eval.evaluateWithin, Eval.visitor_eq_reduction]
  cases hvalue : (Eval.reduction assignment).value e with
  | error error =>
      rw [hvalue] at hfinal
      rw [hfinal]
      rfl
  | ok operand =>
      rw [hvalue] at hfinal
      rw [hfinal]
      rfl

/-- The operand of a tree that is neither a range nor a set is its value. -/
theorem Eval.value_eq_map_evaluate (assignment : Assignment) {e : Expr} (h : ¬ e.isCollection) :
    (reduction assignment).value e = (evaluate assignment e).map .value := by
  rw [evaluate_eq_bind]
  cases hvalue : (reduction assignment).value e with
  | error error => rfl
  | ok operand =>
      rw [← isCollection_of_value hvalue] at h
      obtain ⟨n, rfl⟩ := Operand.exists_value h
      rfl

theorem Eval.mapM_value_eq_map_evaluate (assignment : Assignment) {es : List Expr}
    (h : ∀ e ∈ es, ¬ e.isCollection) :
    es.mapM (reduction assignment).value = (es.mapM (evaluate assignment)).map (List.map .value) :=
  mapM_eq_map fun e hmem => value_eq_map_evaluate assignment (h e hmem)

/-- The assignment is to blame, or the tree itself is a range or a set. -/
theorem evaluate_failure {assignment : Assignment} {e : Expr} (hwellFormed : e.WellFormed)
    {error : EvalError} (h : evaluate assignment e = .error error) :
    error.DueTo assignment ∨ e.isCollection ∧ ∃ kind, error = .unexpectedCollection kind := by
  rw [evaluate_eq_bind] at h
  rcases bind_eq_error_iff.mp h with h | ⟨operand, hvalue, h⟩
  · exact .inl (Eval.value_failure hwellFormed h)
  · obtain ⟨hkind, hfailure⟩ := Operand.toValue_failure h
    rw [Eval.isCollection_of_value hvalue] at hkind
    exact .inr ⟨hkind, hfailure⟩

theorem evaluate_range (assignment : Assignment) (lo hi : Int) :
    evaluate assignment (.range lo hi) = .error (.unexpectedCollection .range) := by
  rw [evaluate_eq_bind]
  rfl

/-- The elements of a set are evaluated before it is refused. -/
theorem evaluate_set (assignment : Assignment) {elements : List Expr}
    (h : ∀ element ∈ elements, ¬ element.isCollection) :
    evaluate assignment (.set elements) =
      elements.mapM (evaluate assignment) >>= fun _ => .error (.unexpectedCollection .set) := by
  rw [evaluate_eq_bind, Reduction.value_eq, Expr.children,
    Eval.mapM_value_eq_map_evaluate assignment h]
  cases elements.mapM (evaluate assignment) with
  | error error => rfl
  | ok xs =>
      show Operand.toValues (xs.map .value) >>= _ >>= _ = _
      rw [Eval.toValues_map_value]
      rfl

end ConstraintExpr
