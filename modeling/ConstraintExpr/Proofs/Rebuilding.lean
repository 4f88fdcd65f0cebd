import ConstraintExpr.Proofs.Calls
import ConstraintExpr.Proofs.Construction
import ConstraintExpr.Proofs.StackMachine

/-!
# Trees from their callbacks

The sequence of callbacks of a walk without a limit is a postfix code of the tree.

* `Expr.labels_cancel`: the labels of a tree tell where they begin after any others,
  so that trees with the same callbacks are equal;
* `Rebuild.value_eq_ok_iff`: calling the builders in the order of the callbacks makes a
  tree again exactly when it is well-formed.

`Expr.calls_faithful` puts both together.
-/

namespace ConstraintExpr

/-! ### Unique decoding -/

namespace Expr

/-- The labels of the tree end a sequence of labels in one way only. -/
def EndsUniquely (a : Expr) : Prop :=
  ∀ {b : Expr} {before before' : List Label},
    before ++ a.labels = before' ++ b.labels → a = b ∧ before = before'

/-- As many trees on either side are taken off the end one by one. -/
theorem flatMap_labels_cancel {as bs : List Expr} {before before' : List Label}
    (has : ∀ a ∈ as, a.EndsUniquely) (hlength : as.length = bs.length)
    (h : before ++ as.flatMap labels = before' ++ bs.flatMap labels) :
    as = bs ∧ before = before' := by
  induction as generalizing bs before before' with
  | nil =>
      obtain rfl := List.length_eq_zero_iff.mp hlength.symm
      simpa using h
  | cons a as ih =>
      cases bs with
      | nil => simp at hlength
      | cons b bs =>
          rw [List.flatMap_cons, List.flatMap_cons, ← List.append_assoc, ← List.append_assoc] at h
          obtain ⟨rfl, hfirst⟩ := ih (fun next hnext => has next (List.mem_cons_of_mem a hnext))
            (Nat.succ.inj hlength) h
          obtain ⟨rfl, hbefore⟩ := has a List.mem_cons_self hfirst
          exact ⟨rfl, hbefore⟩

/-- The last label counts the children, whose labels come just before it. -/
theorem labels_cancel (a : Expr) : a.EndsUniquely := by
  induction a using childInduction with
  | step a ih =>
      intro b before before' h
      rw [a.labels_eq, b.labels_eq, ← List.append_assoc, ← List.append_assoc] at h
      obtain ⟨hbelow, hroot⟩ := List.append_inj' h rfl
      have hlabel : a.label = b.label := List.singleton_inj.mp hroot
      have hlength : a.children.length = b.children.length := by
        rw [length_children, length_children, hlabel]
      obtain ⟨hchildren, hbefore⟩ := flatMap_labels_cancel ih hlength hbelow
      exact ⟨eq_of_label_eq hlabel hchildren, hbefore⟩

end Expr

/-! ### Rebuilding -/

/-- Why a tree is not rebuilt. -/
inductive RebuildError where
  /-- The builder of a node has refused it. -/
  | refused (error : BuildError)
  /-- There are fewer trees than a node has children. -/
  | missingOperands
  /-- The walk fails by itself. -/
  | traversal (error : TraversalError)

namespace Rebuild

/-- The call of the builder for a node with the given label, when the trees are as many
as the node has children. -/
def builder : Label → List Expr → Option (Build Expr)
  | .constant value, [] => some (pure (.constant value))
  | .var id, [] => some (pure (.var id))
  | .unary op, [operand] => some (.unary op operand)
  | .binary op, [left, right] => some (.binary op left right)
  | .nary op count, operands => if operands.length = count then some (.nary op operands) else none
  | .ifThenElse, [condition, ifTrue, ifFalse] => some (.ifThenElse condition ifTrue ifFalse)
  | .range lo hi, [] => some (pure (.range lo hi))
  | .set count, elements => if elements.length = count then some (.set elements) else none
  | _, _ => none

/-- Calls the builder for a node. -/
def combine (label : Label) (operands : List Expr) : Except RebuildError Expr :=
  match builder label operands with
  | some build => build.result.mapError .refused
  | none => .error .missingOperands

/-- Makes every node again from what has been made of its children. -/
def reduction : Reduction Expr RebuildError where
  onTraversal := .traversal
  combine := combine

/-- The builder for the root is called and judges it. -/
theorem exists_builder (e : Expr) :
    ∃ build, builder e.label e.children = some build ∧ build.Judges e.violation e := by
  cases e with
  | constant | var | range => exact ⟨_, rfl, Build.judges_pure _⟩
  | unary op operand => exact ⟨_, rfl, Build.judges_unary op operand⟩
  | binary op left right => exact ⟨_, rfl, Build.judges_binary op left right⟩
  | nary op operands => exact ⟨_, if_pos rfl, Build.judges_nary op operands⟩
  | ifThenElse condition ifTrue ifFalse =>
      exact ⟨_, rfl, Build.judges_ifThenElse condition ifTrue ifFalse⟩
  | set elements => exact ⟨_, if_pos rfl, Build.judges_set elements⟩

theorem combine_eq_ok_iff {e tree : Expr} :
    combine e.label e.children = .ok tree ↔ e.WellPlaced ∧ tree = e := by
  obtain ⟨build, hbuild, hjudges⟩ := exists_builder e
  have hresult : build.result = .ok tree ↔ e.WellPlaced ∧ tree = e := by
    rw [hjudges.result_eq_ok_iff, Expr.violation_eq_none_iff]
  rw [← hresult, combine, hbuild]
  exact mapError_eq_ok_iff

/-- What is made of a list of trees, given what is made of each of them. -/
theorem mapM_value_eq_ok_iff {es trees : List Expr}
    (h : ∀ e ∈ es, ∀ tree, reduction.value e = .ok tree ↔ e.WellFormed ∧ tree = e) :
    es.mapM reduction.value = .ok trees ↔ (∀ e ∈ es, e.WellFormed) ∧ trees = es := by
  rw [mapM_eq_ok_iff]
  induction es generalizing trees with
  | nil => simp
  | cons e es ih =>
      have hrest : ∀ trees, List.Forall₂ (fun e tree => reduction.value e = .ok tree) es trees ↔
          (∀ e ∈ es, e.WellFormed) ∧ trees = es :=
        fun _ => ih fun next hnext => h next (List.mem_cons_of_mem e hnext)
      simp [List.forall₂_cons_left_iff, h e List.mem_cons_self, hrest, and_assoc, and_left_comm]

/-- A tree is made again exactly when it is well-formed. -/
theorem value_eq_ok_iff {e tree : Expr} :
    reduction.value e = .ok tree ↔ e.WellFormed ∧ tree = e := by
  induction e using Expr.childInduction generalizing tree with
  | step e ih =>
      rw [Reduction.value_eq, bind_eq_ok_iff]
      constructor
      · rintro ⟨operands, hoperands, hroot⟩
        obtain ⟨hchildren, rfl⟩ := (mapM_value_eq_ok_iff fun _ hchild _ => ih _ hchild).mp hoperands
        obtain ⟨hplaced, htree⟩ := combine_eq_ok_iff.mp hroot
        exact ⟨.intro hplaced hchildren, htree⟩
      · rintro ⟨hwellFormed, rfl⟩
        refine ⟨_, (mapM_value_eq_ok_iff fun _ hchild _ => ih _ hchild).mpr ⟨?_, rfl⟩, ?_⟩
        · exact fun child hchild => hwellFormed.child hchild
        · exact combine_eq_ok_iff.mpr ⟨hwellFormed.wellPlaced, rfl⟩

end Rebuild

/-- Two trees with the same callbacks in the same order are equal. The builders, called
in that order with as many of the last trees as each node has children, put the tree back
on top of any stack, and this exactly for the trees that the builders make. -/
theorem Expr.calls_faithful :
    (∀ a b : Expr, a.calls none = b.calls none → a = b) ∧
      ∀ (e : Expr) (stack : List Expr),
        Rebuild.reduction.visitor.walk none e stack = (.ok (), e :: stack) ↔ Obtainable e := by
  refine ⟨fun a b h => ?_, fun e stack => ?_⟩
  · rw [a.calls_none, b.calls_none] at h
    exact (a.labels_cancel (congrArg ([] ++ ·) h)).1
  · obtain ⟨left, hwalk⟩ := Rebuild.reduction.exists_walk e
    rw [hwalk, obtainable_iff]
    cases hvalue : Rebuild.reduction.value e with
    | ok tree =>
        obtain ⟨hwellFormed, rfl⟩ := Rebuild.value_eq_ok_iff.mp hvalue
        simp [hwellFormed]
    | error error =>
        have hill : ¬ e.WellFormed := fun h => by
          simp [Rebuild.value_eq_ok_iff.mpr ⟨h, rfl⟩] at hvalue
        simp [hill]

end ConstraintExpr
