import ConstraintExpr.Proofs.Collection
import ConstraintExpr.Proofs.Failure

/-!
# The scope of a tree governs its evaluation

The scope lists the first occurrences of the identifiers of a tree
(`Expr.scope_eq_firstOccurrences`), and an evaluation comes across these
identifiers in the same order, whatever the operators.

* `Eval.value_congr`: only the identifiers of the tree matter;
* `Eval.isSome_of_value`: an operand is found only if all of them have a value;
* `Eval.find?_of_value`: the variable that is reported to have no value is the
  first one that has none.

`scope_governs_evaluate` is all three for the scope.
-/

namespace ConstraintExpr

/-! ### What an evaluation depends on -/

namespace Eval

variable {assignment : Assignment}

theorem combine_congr {other : Assignment} {label : Label}
    (h : ∀ id, label = .var id → assignment id = other id) :
    combine assignment label = combine other label := by
  cases label with
  | var id =>
      funext operands
      rw [combine, combine, h id rfl]
  | binary op => cases op <;> rfl
  | _ => rfl

/-- Assignments that agree on the identifiers of a tree give it the same
operand, or the same failure. -/
theorem value_congr {other : Assignment} {e : Expr}
    (h : ∀ id ∈ e.identifiers, assignment id = other id) :
    (reduction assignment).value e = (reduction other).value e := by
  induction e using Expr.childInduction with
  | step e ih =>
      have hchildren : ∀ child ∈ e.children,
          (reduction assignment).value child = (reduction other).value child :=
        fun child hchild =>
          ih child hchild fun id hid => h id (Expr.identifiers_subset hchild hid)
      have hroot : ∀ id, e.label = .var id → assignment id = other id := by
        intro id hlabel
        cases e with
        | var id' =>
            cases hlabel
            exact h id (List.mem_singleton.mpr rfl)
        | _ => cases hlabel
      have hcombine : (reduction assignment).combine e.label = (reduction other).combine e.label :=
        combine_congr hroot
      rw [Reduction.value_eq, Reduction.value_eq, mapM_congr hchildren, hcombine]

/-- All variables of a tree that has an operand have a value. -/
theorem isSome_of_value {e : Expr} {operand : Operand}
    (h : (reduction assignment).value e = .ok operand) :
    ∀ id ∈ e.identifiers, (assignment id).isSome := by
  induction e using Expr.childInduction generalizing operand with
  | step e ih =>
      intro id hid
      rw [Reduction.value_eq] at h
      obtain ⟨operands, hoperands, hnode⟩ := bind_eq_ok_iff.mp h
      cases e with
      | var id' =>
          obtain rfl := List.mem_singleton.mp hid
          cases hvalue : assignment id with
          | some n => rfl
          | none => simp [Expr.label, reduction, combine, hvalue] at hnode
      | _ =>
          rw [Expr.identifiers_eq_flatMap (by intro id h; cases h)] at hid
          obtain ⟨child, hchild, hid⟩ := List.mem_flatMap.mp hid
          obtain ⟨operand, hoperand, _⟩ := exists_ok_of_mapM hoperands hchild
          exact ih child hchild hoperand id hid

/-- The only node to miss the value of a variable by itself is that variable. -/
theorem combine_unbound {label : Label} {operands : List Operand} {id : String}
    (h : combine assignment label operands = .error (.unboundVariable id)) :
    label = .var id ∧ assignment id = none := by
  rcases combine_error h with h | ⟨_, hlabel, hid, herror⟩
  · exact h.elim
  · cases herror
    exact ⟨hlabel, hid⟩

/-- The variable that is missed is the first one, from left to right, that has
no value. -/
theorem find?_of_value {e : Expr} {id : String}
    (h : (reduction assignment).value e = .error (.unboundVariable id)) :
    e.identifiers.find? (fun id => (assignment id).isNone) = some id := by
  induction e using Expr.childInduction with
  | step e ih =>
      rcases Reduction.value_eq_error_iff.mp h with
        ⟨before, child, after, hchildren, hbefore, hchild⟩ | ⟨operands, _, hnode⟩
      · have hmem : child ∈ e.children := by simp [hchildren]
        -- the children before succeeded, so that nothing is missed in them
        have hbound :
            (before.flatMap Expr.identifiers).find? (fun id => (assignment id).isNone) = none := by
          rw [List.find?_eq_none]
          intro id hid
          obtain ⟨sibling, hsibling, hid⟩ := List.mem_flatMap.mp hid
          obtain ⟨operand, hoperand⟩ := hbefore sibling hsibling
          rw [Option.isNone_iff_eq_none, ← Option.not_isSome_iff_eq_none, not_not]
          exact isSome_of_value hoperand id hid
        rw [Expr.identifiers_eq_flatMap (Expr.ne_var_of_mem_children hmem), hchildren,
          List.flatMap_append, List.flatMap_cons, List.find?_append, List.find?_append, hbound,
          ih child hmem hchild]
        rfl
      · obtain ⟨hlabel, hid⟩ := combine_unbound hnode
        cases e with
        | var id' =>
            cases hlabel
            exact List.find?_cons_of_pos (by simp [hid])
        | _ => cases hlabel

end Eval

/-- Evaluation depends on the variables in the scope and on no others. It
succeeds only if all of them have a value, and a variable that it reports to
have none is the first of those in the scope. -/
theorem scope_governs_evaluate (e : Expr) :
    (∀ assignment other : Assignment, (∀ id ∈ e.scope, assignment id = other id) →
        evaluate assignment e = evaluate other e) ∧
      ∀ assignment : Assignment,
        (∀ n, evaluate assignment e = .ok n → ∀ id ∈ e.scope, (assignment id).isSome) ∧
          ∀ id, evaluate assignment e = .error (.unboundVariable id) →
            e.scope.find? (fun id => (assignment id).isNone) = some id := by
  rw [e.scope_eq_firstOccurrences]
  simp only [mem_firstOccurrences, find?_firstOccurrences]
  refine ⟨fun assignment other h => ?_, fun assignment => ⟨fun n h => ?_, fun id h => ?_⟩⟩
  · rw [evaluate_eq_bind, evaluate_eq_bind, Eval.value_congr h]
  · rw [evaluate_eq_bind] at h
    obtain ⟨operand, hvalue, _⟩ := bind_eq_ok_iff.mp h
    exact Eval.isSome_of_value hvalue
  · rw [evaluate_eq_bind] at h
    rcases bind_eq_error_iff.mp h with h | ⟨operand, _, h⟩
    · exact Eval.find?_of_value h
    · obtain ⟨_, _, h⟩ := Operand.toValue_failure h
      cases h

end ConstraintExpr
