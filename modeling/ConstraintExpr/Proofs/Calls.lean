import ConstraintExpr.Proofs.CutOff
import ConstraintExpr.Walk.Reduction

/-!
# The sequence of callbacks

What the callbacks of a walk are given, apart from subtrees that have been walked
already, is the labels of the nodes. A recorder notes them in the order of the
callbacks (`Expr.calls`).

* `Expr.calls_none`: a walk without a limit calls back for all labels in
  post-order (`Expr.labels`), and `Expr.calls_prefix`: a limit leaves the first ones
  of them;
* `Visitor.walk_eq_sequence`: to a visitor that goes by the labels, a walk without a
  limit is its sequence of labels.
-/

namespace ConstraintExpr

/-! ### Recording -/

/-- Adds a label to those noted. -/
def Label.note (label : Label) : Action (List Label) TraversalError :=
  .update (· ++ [label])

/-- Notes the label of each node. -/
def Visitor.recorder : Visitor (List Label) TraversalError where
  onTraversal := id
  constant value := Label.note (.constant value)
  var id := Label.note (.var id)
  unary op _ := Label.note (.unary op)
  binary op _ _ := Label.note (.binary op)
  nary op operands := Label.note (.nary op operands.length)
  ifThenElse _ _ _ := Label.note .ifThenElse
  range lo hi := Label.note (.range lo hi)
  set elements := Label.note (.set elements.length)

theorem Visitor.visit_recorder (e : Expr) : recorder.visit e = e.label.note := by
  cases e <;> rfl

theorem Label.sequence_note (labels noted : List Label) :
    Action.sequence (labels.map note) noted = (.ok (), noted ++ labels) := by
  induction labels generalizing noted with
  | nil => simp [Action.sequence, Action.skip, Action.update]
  | cons label labels ih =>
      have hfirst : label.note noted = (.ok (), noted ++ [label]) := rfl
      rw [List.map_cons, Action.sequence, Action.andThen_of_ok hfirst, ih]
      simp

namespace Expr

/-- The labels that a walk within a limit calls back for, in order. -/
def calls (limit : Option Nat) (e : Expr) : List Label :=
  (Visitor.recorder.walk limit e []).2

/-! ### The labels of a tree -/

/-- The label of the node at an address. -/
def labelAt (e : Expr) (a : Address) : Option Label :=
  (e.node? a).map label

/-- The labels of the nodes in post-order. -/
def labels (e : Expr) : List Label :=
  e.addresses.filterMap e.labelAt

theorem labelAt_child {e child : Expr} {i : Nat} (hchild : e.children[i]? = some child)
    (a : Address) : e.labelAt (i :: a) = child.labelAt a := by
  rw [labelAt, node?_cons hchild]
  rfl

/-- The labels below the children from number `i` on. -/
theorem filterMap_addressesBelow {e : Expr} {i : Nat} {rest : List Expr}
    (hrest : e.children.drop i = rest) :
    (addressesBelow i (rest.map addresses)).filterMap e.labelAt = rest.flatMap labels := by
  induction rest generalizing i with
  | nil => rfl
  | cons first rest ih =>
      obtain ⟨hfirst, hnext⟩ := drop_children_eq_cons hrest
      rw [List.map_cons, addressesBelow, List.filterMap_append, List.filterMap_map, ih hnext,
        List.flatMap_cons, labels]
      exact congrArg (fun act => first.addresses.filterMap act ++ rest.flatMap labels)
        (funext (labelAt_child hfirst))

theorem labels_eq (e : Expr) : e.labels = e.children.flatMap labels ++ [e.label] := by
  rw [labels, addresses_eq, List.filterMap_append, filterMap_addressesBelow List.drop_zero]
  rfl

example : (Expr.binary (.member .belongs) (.var "x") (.set [.constant 1, .constant 2])).labels =
    [.var "x", .constant 1, .constant 2, .set 2, .binary (.member .belongs)] := by
  decide

end Expr

/-! ### Visitors that go by the labels -/

namespace Visitor

variable {σ ε : Type} {v : Visitor σ ε} {act : Label → Action σ ε}

theorem callEach_eq_sequence (hact : ∀ e, v.visit e = act e.label) (e : Expr) (depth : Nat)
    (as : List Address) :
    v.callback.callEach e depth as = .sequence ((as.filterMap e.labelAt).map act) := by
  induction as with
  | nil => rfl
  | cons a as ih =>
      rw [Callback.callEach_cons, ih, List.filterMap_cons, Callback.callAt, Expr.labelAt]
      cases e.node? a with
      | none => rfl
      | some node => exact congrArg (Action.andThen · _) (hact node)

/-- A walk without a limit does for each label, one after another, what the visitor does
for it. -/
theorem walk_eq_sequence (hact : ∀ e, v.visit e = act e.label) (e : Expr) :
    v.walk none e = .sequence (e.labels.map act) := by
  rw [walk_eq, traverse, Callback.traverse_none, callEach_eq_sequence hact]
  rfl

theorem walk_recorder_none (e : Expr) (noted : List Label) :
    recorder.walk none e noted = (.ok (), noted ++ e.labels) := by
  rw [walk_eq_sequence visit_recorder, Label.sequence_note]

end Visitor

namespace Expr

/-- Without a limit, every node is called back for. -/
theorem calls_none (e : Expr) : e.calls none = e.labels := by
  rw [calls, Visitor.walk_recorder_none, List.nil_append]

/-- With a limit, the first nodes are called back for. -/
theorem calls_prefix (limit : Option Nat) (e : Expr) : e.calls limit <+: e.labels := by
  rw [calls, Visitor.walk_eq, Visitor.traverse]
  rcases Visitor.recorder.callback.traverse_follows limit e 1 with
    h | ⟨deepest, called, _, hcalled, h⟩
  · rw [h, Visitor.callEach_eq_sequence Visitor.visit_recorder, Label.sequence_note]
    exact List.prefix_rfl
  · rw [h, Visitor.callEach_eq_sequence Visitor.visit_recorder,
      Action.andThen_of_ok (Label.sequence_note _ [])]
    exact hcalled.filterMap e.labelAt

end Expr

end ConstraintExpr
