import ConstraintExpr.Proofs.Address

/-!
# Well-formed trees

A node is well placed when its operator has the arity of the node and when
ranges and sets stand on the right of a set-belonging operator and nowhere else.
A tree is well-formed when all its nodes are well placed.

Well-formedness passes to every subtree (`Expr.WellFormed.of_node?`), also to
the ranges and sets, which are well-formed by themselves. It is decided by
`Expr.wellFormedCheck`.
-/

namespace ConstraintExpr.Expr

/-- The root of a tree has the operator and the operands that its kind admits. -/
def WellPlaced : Expr → Prop
  | .constant _ | .var _ | .range _ _ => True
  | .unary op operand => op.arity = .unary ∧ ¬ operand.isCollection
  | .binary op left right =>
      op.arity = .binary ∧ ¬ left.isCollection ∧
        (right.isCollection ↔ ∃ membership, op = .member membership)
  | .nary op operands =>
      op.arity = .nary ∧ operands ≠ [] ∧ ∀ operand ∈ operands, ¬ operand.isCollection
  | .ifThenElse condition ifTrue ifFalse =>
      ¬ condition.isCollection ∧ ¬ ifTrue.isCollection ∧ ¬ ifFalse.isCollection
  | .set elements => ∀ element ∈ elements, ¬ element.isCollection

/-- Every node of the tree is well placed. -/
inductive WellFormed : Expr → Prop
  | intro {e} : e.WellPlaced → (∀ child ∈ e.children, WellFormed child) → WellFormed e

namespace WellFormed

theorem wellPlaced {e : Expr} (h : e.WellFormed) : e.WellPlaced := by
  cases h with
  | intro hroot _ => exact hroot

theorem child {e child : Expr} (h : e.WellFormed) (hchild : child ∈ e.children) :
    child.WellFormed := by
  cases h with
  | intro _ hchildren => exact hchildren child hchild

/-- Subtrees of well-formed trees are well-formed. -/
theorem of_node? {e node : Expr} {a : Address} (h : e.WellFormed)
    (hnode : e.node? a = some node) : node.WellFormed := by
  induction a generalizing e with
  | nil =>
      rw [node?, Option.some.injEq] at hnode
      subst hnode
      exact h
  | cons i a ih =>
      rw [node?, Option.bind_eq_some_iff] at hnode
      obtain ⟨next, hnext, hnode⟩ := hnode
      exact ih (h.child (List.mem_of_getElem? hnext)) hnode

end WellFormed

/-! ### Operators of well-placed nodes -/

theorem isSetBelonging_iff {op : Operator} :
    op.isSetBelonging = true ↔ ∃ membership, op = .member membership := by
  cases op <;> simp [Operator.isSetBelonging]

theorem isSetBelonging_of_arity {op : Operator} (h : op.arity ≠ .binary) :
    op.isSetBelonging = false := by
  cases op with
  | member op => exact absurd rfl h
  | _ => rfl

theorem not_isCollection_of_operator {e : Expr} {op : Operator} (hop : e.operator? = some op) :
    ¬ e.isCollection := by
  cases e with
  | range lo hi => cases hop
  | set elements => cases hop
  | _ => exact Bool.false_ne_true

namespace WellPlaced

variable {e : Expr} {op : Operator}

/-- A node has as many children as its operator accepts operands. -/
theorem accepts (h : e.WellPlaced) (hop : e.operator? = some op) :
    op.arity.accepts e.children.length := by
  cases e with
  | unary op' operand =>
      cases hop
      rw [h.1]
      rfl
  | binary op' left right =>
      cases hop
      rw [h.1]
      rfl
  | nary op' operands =>
      cases hop
      rw [h.1]
      exact decide_eq_true (List.length_pos_iff.mpr h.2.1)
  | _ => cases hop

theorem isSetBelonging_eq {left right : Expr} (h : (Expr.binary op left right).WellPlaced) :
    op.isSetBelonging = right.isCollection := by
  rw [Bool.eq_iff_iff, isSetBelonging_iff]
  exact h.2.2.symm

/-- The operands of all operators but the set-belonging ones are values. -/
theorem not_isCollection (h : e.WellPlaced) (hop : e.operator? = some op)
    (hvalue : op.isSetBelonging = false) : ∀ child ∈ e.children, ¬ child.isCollection := by
  cases e with
  | unary op' operand => exact List.forall_mem_singleton.mpr h.2
  | binary op' left right =>
      cases hop
      rw [h.isSetBelonging_eq, ← Bool.not_eq_true] at hvalue
      exact List.forall_mem_cons.mpr ⟨h.2.1, List.forall_mem_singleton.mpr hvalue⟩
  | nary op' operands => exact h.2.2
  | _ => cases hop

end WellPlaced

/-! ### Deciding well-formedness -/

instance (op : Operator) : Decidable (∃ membership, op = .member membership) :=
  decidable_of_iff _ isSetBelonging_iff

instance (e : Expr) : Decidable e.WellPlaced :=
  match e with
  | .constant _ | .var _ | .range _ _ => isTrue trivial
  | .unary _ _ => inferInstanceAs (Decidable (_ ∧ _))
  | .binary _ _ _ => inferInstanceAs (Decidable (_ ∧ _ ∧ (_ ↔ _)))
  | .nary _ _ => inferInstanceAs (Decidable (_ ∧ _ ∧ _))
  | .ifThenElse _ _ _ => inferInstanceAs (Decidable (_ ∧ _ ∧ _))
  | .set elements => inferInstanceAs (Decidable (∀ element ∈ elements, _))

/-- Looks at every node of a tree. -/
def wellFormedCheck (e : Expr) : Bool :=
  e.fold fun e children => decide e.WellPlaced && children.all id

theorem wellFormedCheck_iff {e : Expr} : e.wellFormedCheck = true ↔ e.WellFormed := by
  induction e using childInduction with
  | step e ih =>
      have hfold : e.wellFormedCheck =
          (decide e.WellPlaced && (e.children.map wellFormedCheck).all id) := fold_eq _ e
      rw [hfold, Bool.and_eq_true, decide_eq_true_eq, List.all_map, List.all_eq_true]
      constructor
      · rintro ⟨hroot, hchildren⟩
        exact .intro hroot fun child hchild => (ih child hchild).mp (hchildren child hchild)
      · intro h
        exact ⟨h.wellPlaced, fun child hchild => (ih child hchild).mpr (h.child hchild)⟩

instance (e : Expr) : Decidable e.WellFormed :=
  decidable_of_iff _ wellFormedCheck_iff

end ConstraintExpr.Expr
