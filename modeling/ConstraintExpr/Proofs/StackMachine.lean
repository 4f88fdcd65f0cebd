import ConstraintExpr.Proofs.Consumption
import ConstraintExpr.Proofs.Results
import ConstraintExpr.Proofs.Traversal

/-!
# Stack machines compute by recursion

The result of a reduction at a node is the recursive one: the results of all
children first, from left to right, and then what the reduction combines them
to (`Reduction.value_eq`).

`Reduction.exists_walk` says that an unlimited walk puts exactly this result on
top of whatever the stack held, or fails as the recursion does.
-/

namespace ConstraintExpr.Reduction

variable {α ε : Type}

/-- The result of a tree, or the first failure. -/
def value (r : Reduction α ε) (e : Expr) : Except ε α :=
  e.fold fun e results => results.mapM id >>= r.combine e.label

theorem value_eq (r : Reduction α ε) (e : Expr) :
    r.value e = e.children.mapM r.value >>= r.combine e.label := by
  have h := Expr.fold_eq (fun e results => results.mapM id >>= r.combine e.label) e
  rw [List.mapM_map] at h
  exact h

/-- A callback that finds the results of the children on top of the stack takes
all of them and nothing else. -/
theorem act_append (r : Reduction α ε) (e : Expr) {results : List α}
    (hlength : results.length = e.children.length) (stack : List α) :
    r.visitor.visit e (results.reverse ++ stack) =
      match r.combine e.label results with
      | .ok result => (.ok (), result :: stack)
      | .error error => (.error error, stack) := by
  have hcount : e.children.length = results.reverse.length := by
    rw [List.length_reverse, hlength]
  have htaken : taken e (results.reverse ++ stack) = results.reverse := by
    rw [taken_eq_take, hcount, List.take_left]
  have hbase : base e (results.reverse ++ stack) = stack := by
    rw [base_eq_drop, hcount, List.drop_left]
  cases hcombine : r.combine e.label results <;>
  · rw [visit_eq, htaken, hbase, List.reverse_reverse, hcombine]

/-- What a list of trees does to the stack, given what each of them does. -/
theorem exists_sequence (r : Reduction α ε) {es : List Expr} {act : Expr → Action (List α) ε}
    (hact : ∀ e ∈ es, ∃ left, ∀ stack, act e stack =
      match r.value e with
      | .ok result => (.ok (), result :: stack)
      | .error error => (.error error, left ++ stack)) :
    ∃ left, ∀ stack, Action.sequence (es.map act) stack =
      match es.mapM r.value with
      | .ok results => (.ok (), results.reverse ++ stack)
      | .error error => (.error error, left ++ stack) := by
  induction es with
  | nil => exact ⟨[], fun stack => rfl⟩
  | cons e es ih =>
      obtain ⟨left, hfirst⟩ := hact e List.mem_cons_self
      obtain ⟨lefts, hrest⟩ := ih fun next hnext => hact next (List.mem_cons_of_mem _ hnext)
      rw [List.mapM_cons]
      cases hvalue : r.value e with
      | error error =>
          rw [hvalue] at hfirst
          exact ⟨left, fun stack => Action.andThen_of_error (hfirst stack)⟩
      | ok result =>
          rw [hvalue] at hfirst
          refine ⟨lefts ++ [result], fun stack => ?_⟩
          have hrun := hrest (result :: stack)
          rw [List.map_cons, Action.sequence, Action.andThen_of_ok (hfirst stack), hrun]
          cases es.mapM r.value with
          | error error => simp
          | ok results => simp [pure, Except.pure]

/-- A traversal puts the result of the tree on the stack. If there is none, it
leaves something of its own there, and the stack below as it was. -/
theorem exists_traverse (r : Reduction α ε) (e : Expr) (depth : Nat) :
    ∃ left, ∀ stack, r.visitor.traverse none e depth stack =
      match r.value e with
      | .ok result => (.ok (), result :: stack)
      | .error error => (.error error, left ++ stack) := by
  induction e using Expr.childInduction generalizing depth with
  | step e ih =>
      obtain ⟨left, hchildren⟩ := r.exists_sequence fun child hchild => ih child hchild (depth + 1)
      rw [value_eq]
      cases hresults : e.children.mapM r.value with
      | error error =>
          rw [hresults] at hchildren
          refine ⟨left, fun stack => ?_⟩
          rw [Visitor.traverse, Callback.traverse_eq, Callback.checkDepth_none, Action.skip_andThen]
          exact Action.andThen_of_error (hchildren stack)
      | ok results =>
          rw [hresults] at hchildren
          refine ⟨[], fun stack => ?_⟩
          have hlength : results.length = e.children.length := length_of_mapM hresults
          rw [Visitor.traverse, Callback.traverse_eq, Callback.checkDepth_none, Action.skip_andThen]
          exact (Action.andThen_of_ok (hchildren stack)).trans (r.act_append e hlength stack)

/-- An unlimited walk puts the result of the tree on the stack. If there is
none, it fails as the recursion does, and the stack below is as it was. -/
theorem exists_walk (r : Reduction α ε) (e : Expr) :
    ∃ left, ∀ stack, r.visitor.walk none e stack =
      match r.value e with
      | .ok result => (.ok (), result :: stack)
      | .error error => (.error error, left ++ stack) := by
  rw [Visitor.walk_eq]
  exact r.exists_traverse e 1

end ConstraintExpr.Reduction
