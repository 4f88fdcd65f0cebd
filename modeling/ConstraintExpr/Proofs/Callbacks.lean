import Mathlib.Data.List.Forall2
import ConstraintExpr.Proofs.CutOff

/-!
# The callbacks that a walk makes

The loop of a walk takes frames off its stack and calls back for those whose children
are done with (`Walk.called`). Which nodes these are, and at which depth, does not depend
on the stack: the nodes that the limit lets the walk come to, in post-order
(`Expr.DueWithin`), up to the first one whose callback fails (`Callback.upToFailure`).

* `Walk.run_noting`: a walk that notes the frames it calls back for does the same
  otherwise, and `Callback.callEach_noting` does this for calls node by node;
* `Callback.exists_called_eq`: the frames called back for are those of the nodes that are due;
* `Visitor.called_none_of_ok`: these are all nodes when a walk without a limit succeeds,
  so that counting them is counting nodes (`Expr.counts_by_children`).
-/

namespace ConstraintExpr

namespace Walk

variable {σ ε : Type}

/-- The frames that the loop takes off the stack, in order, and among them the one at
which it fails. -/
def taken (limit : Option Nat) (c : Callback σ ε) : List Frame → σ → List Frame
  | [], _ => []
  | frame :: below, state =>
      frame ::
        match _hstep : step limit c frame below state with
        | (.ok frames, next) => taken limit c frames next
        | (.error _, _) => []
termination_by frames => weight frames
decreasing_by
  have := weight_step _hstep
  omega

/-- The frames that the loop calls back for, in order: it does when it takes a frame off
for the second time. -/
def called (limit : Option Nat) (c : Callback σ ε) (frames : List Frame) (state : σ) :
    List Frame :=
  (taken limit c frames state).filter Frame.expanded

theorem called_of_ok {limit : Option Nat} {c : Callback σ ε} {frame : Frame}
    {below frames : List Frame} {state next : σ}
    (hstep : step limit c frame below state = (.ok frames, next)) :
    called limit c (frame :: below) state =
      [frame].filter Frame.expanded ++ called limit c frames next := by
  rw [called, taken, hstep]
  exact List.filter_append [frame] _

theorem called_of_error {limit : Option Nat} {c : Callback σ ε} {frame : Frame}
    {below : List Frame} {state next : σ} {error : ε}
    (hstep : step limit c frame below state = (.error error, next)) :
    called limit c (frame :: below) state = [frame].filter Frame.expanded := by
  rw [called, taken, hstep]

end Walk

/-! ### Noting the frames called back for -/

/-- Notes the frame of each node, then calls back for it. -/
def Callback.noting {σ ε : Type} (c : Callback σ ε) : Callback (σ × List Frame) ε where
  onTraversal := c.onTraversal
  call depth e := fun (state, noted) =>
    let (result, next) := c.call depth e state
    (result, next, noted ++ [⟨e, depth, true⟩])

namespace Walk

variable {σ ε : Type}

theorem step_noting (limit : Option Nat) (c : Callback σ ε) (frame : Frame) (below : List Frame)
    (state : σ) (noted : List Frame) :
    step limit c.noting frame below (state, noted) =
      ((step limit c frame below state).1, (step limit c frame below state).2,
        noted ++ [frame].filter Frame.expanded) := by
  obtain ⟨e, depth, expanded⟩ := frame
  cases expanded with
  | true =>
      have hfilter : [(⟨e, depth, true⟩ : Frame)].filter Frame.expanded = [⟨e, depth, true⟩] := rfl
      have hcall : c.noting.call depth e (state, noted) =
          ((c.call depth e state).1, (c.call depth e state).2, noted ++ [⟨e, depth, true⟩]) := rfl
      rw [hfilter, step, step, if_pos rfl, if_pos rfl, hcall]
      rcases c.call depth e state with ⟨_ | _, _⟩ <;> rfl
  | false =>
      have hfilter : [(⟨e, depth, false⟩ : Frame)].filter Frame.expanded = [] := rfl
      rw [hfilter, List.append_nil, step, step, if_neg Bool.false_ne_true,
        if_neg Bool.false_ne_true]
      cases exceeded? limit depth <;> rfl

/-- Noting the frames changes neither the result nor the state. -/
theorem run_noting (limit : Option Nat) (c : Callback σ ε) (frames : List Frame) (state : σ)
    (noted : List Frame) :
    run limit c.noting frames (state, noted) =
      ((run limit c frames state).1, (run limit c frames state).2,
        noted ++ called limit c frames state) := by
  fun_induction run limit c frames state generalizing noted with
  | case1 state =>
      rw [run, called, taken]
      simp
  | case2 frame below state frames next hstep ih =>
      have hnoting := step_noting limit c frame below state noted
      rw [hstep] at hnoting
      rw [run, hnoting, called_of_ok hstep, ← List.append_assoc]
      exact ih _
  | case3 frame below state error next hstep =>
      have hnoting := step_noting limit c frame below state noted
      rw [hstep] at hnoting
      rw [run, hnoting, called_of_error hstep]

end Walk

/-! ### Calls node by node -/

/-- The frame with which the node at an address is called back for, in a tree whose root
lies at the given depth. -/
def Expr.frameAt (e : Expr) (depth : Nat) (a : Address) : Option Frame :=
  (e.node? a).map fun node => ⟨node, depth + a.length, true⟩

namespace Callback

variable {σ ε : Type}

/-- Of the nodes at the addresses, those up to the first one whose callback fails. -/
def upToFailure (c : Callback σ ε) (e : Expr) (depth : Nat) : List Address → σ → List Address
  | [], _ => []
  | a :: as, state =>
      a ::
        match c.callAt e depth a state with
        | (.ok _, next) => c.upToFailure e depth as next
        | (.error _, _) => []

theorem upToFailure_of_ok {c : Callback σ ε} {e : Expr} {depth : Nat} {as : List Address}
    {state final : σ} (h : c.callEach e depth as state = (.ok (), final)) :
    c.upToFailure e depth as state = as := by
  induction as generalizing state with
  | nil => rfl
  | cons a as ih =>
      rw [callEach_cons] at h
      obtain ⟨next, hfirst, hrest⟩ := Action.andThen_eq_ok h
      rw [upToFailure, hfirst]
      exact congrArg (a :: ·) (ih hrest)

theorem upToFailure_prefix (c : Callback σ ε) (e : Expr) (depth : Nat) (as : List Address)
    (state : σ) : c.upToFailure e depth as state <+: as := by
  induction as generalizing state with
  | nil => exact List.prefix_rfl
  | cons a as ih =>
      rw [upToFailure]
      refine (List.prefix_cons_inj a).mpr ?_
      rcases c.callAt e depth a state with ⟨_ | _, next⟩
      · exact List.nil_prefix
      · exact ih next

theorem callAt_noting (c : Callback σ ε) (e : Expr) (depth : Nat) (a : Address) (state : σ)
    (noted : List Frame) :
    c.noting.callAt e depth a (state, noted) =
      ((c.callAt e depth a state).1, (c.callAt e depth a state).2,
        noted ++ (e.frameAt depth a).toList) := by
  rw [callAt, callAt, Expr.frameAt]
  cases e.node? a with
  | none => simp [Action.skip, Action.update]
  | some node => rfl

/-- What is noted are the frames up to the first failure. -/
theorem callEach_noting (c : Callback σ ε) (e : Expr) (depth : Nat) (as : List Address)
    (state : σ) (noted : List Frame) :
    c.noting.callEach e depth as (state, noted) =
      ((c.callEach e depth as state).1, (c.callEach e depth as state).2,
        noted ++ (c.upToFailure e depth as state).filterMap (e.frameAt depth)) := by
  induction as generalizing state noted with
  | nil => simp [callEach, Action.sequence, Action.skip, Action.update, upToFailure]
  | cons a as ih =>
      have hfilterMap : ∀ rest, (a :: rest).filterMap (e.frameAt depth) =
          (e.frameAt depth a).toList ++ rest.filterMap (e.frameAt depth) := by
        intro rest
        rw [List.filterMap_cons]
        cases e.frameAt depth a <;> rfl
      have hfirst := c.callAt_noting e depth a state noted
      rw [callEach_cons, callEach_cons, upToFailure, hfilterMap]
      cases hcall : c.callAt e depth a state with
      | mk result next =>
          rw [hcall] at hfirst
          cases result with
          | error error =>
              rw [Action.andThen_of_error hfirst, Action.andThen_of_error hcall]
              simp
          | ok =>
              rw [Action.andThen_of_ok hfirst, Action.andThen_of_ok hcall, ih, List.append_assoc]

end Callback

/-! ### The nodes that are due -/

namespace Expr

/-- The nodes that a walk within a limit comes to, in the order of the callbacks: all of
them, or those with whose whole subtree it is done when it reaches the first node beyond
the limit. -/
inductive DueWithin (e : Expr) : Option Nat → List Address → Prop
  | all {limit} : (∀ deepest ∈ limit, e.depth ≤ deepest) → DueWithin e limit e.addresses
  | cut {deepest first due} : deepest < e.depth → e.FirstReached deepest first →
      e.DoneBefore first due → DueWithin e (some deepest) due

theorem DueWithin.inOrder {e : Expr} {limit : Option Nat} {due : List Address}
    (h : e.DueWithin limit due) : due <+: e.addresses := by
  cases h with
  | all _ => exact List.prefix_rfl
  | cut _ _ hdone => exact hdone.inOrder

theorem DueWithin.eq_addresses {e : Expr} {due : List Address} (h : e.DueWithin none due) :
    due = e.addresses := by
  cases h with
  | all _ => rfl

/-- The frames of nodes that the tree has, one for each. -/
theorem forall₂_frameAt {e : Expr} {as : List Address} (h : ∀ a ∈ as, (e.node? a).isSome)
    (depth : Nat) :
    List.Forall₂ (fun a frame => e.frameAt depth a = some frame) as
      (as.filterMap (e.frameAt depth)) := by
  induction as with
  | nil => exact .nil
  | cons a as ih =>
      obtain ⟨node, hnode⟩ := Option.isSome_iff_exists.mp (h a List.mem_cons_self)
      have hframe : e.frameAt depth a = some ⟨node, depth + a.length, true⟩ := by
        rw [frameAt, hnode, Option.map_some]
      rw [List.filterMap_cons_some hframe]
      exact .cons hframe (ih fun b hb => h b (List.mem_cons_of_mem a hb))

end Expr

namespace Callback

variable {σ ε : Type}

/-- A walk calls back for the nodes that are due, and fails then if the limit has kept it
from the others. -/
theorem exists_due (c : Callback σ ε) (limit : Option Nat) (e : Expr) :
    ∃ due, e.DueWithin limit due ∧
      (c.walk limit e = c.callEach e 1 due ∨
        ∃ deepest, c.walk limit e = (c.callEach e 1 due).andThen (c.failDeep deepest)) := by
  cases limit with
  | none =>
      refine ⟨e.addresses, .all fun _ h => absurd h (Option.not_mem_none _), .inl ?_⟩
      rw [walk_eq, traverse_none]
  | some deepest =>
      by_cases hdeep : deepest < e.depth
      · have hlevel := hdeep
        rw [e.depth_eq_height] at hlevel
        obtain ⟨first, due, hfirst, hdone, hcut⟩ :=
          c.exists_traverse_cutOff (Nat.add_comm 1 deepest) hlevel
        refine ⟨due, .cut hdeep hfirst hdone, .inr ⟨deepest, ?_⟩⟩
        rw [walk_eq, hcut]
      · have hwithin : e.depth ≤ deepest := Nat.not_lt.mp hdeep
        refine ⟨e.addresses, .all fun bound hbound => ?_, .inl ?_⟩
        · rw [← Option.mem_some_iff.mp hbound]
          exact hwithin
        · rw [e.depth_eq_height] at hwithin
          rw [walk_eq, c.traverse_of_height_le (by omega), traverse_none]

/-- The frames called back for are those of the nodes that are due, up to the first
failure. -/
theorem exists_called_eq (c : Callback σ ε) (limit : Option Nat) (e : Expr) (state : σ) :
    ∃ due, e.DueWithin limit due ∧
      Walk.called limit c [.pending e 1] state =
        (c.upToFailure e 1 due state).filterMap (e.frameAt 1) := by
  obtain ⟨due, hdue, hwalk⟩ := c.noting.exists_due limit e
  refine ⟨due, hdue, ?_⟩
  have hnoted : (c.noting.walk limit e (state, [])).2.2 =
      Walk.called limit c [.pending e 1] state := by
    rw [Callback.walk, Walk.run_noting, List.nil_append]
  have hcalls : (c.noting.callEach e 1 due (state, [])).2.2 =
      (c.upToFailure e 1 due state).filterMap (e.frameAt 1) := by
    rw [callEach_noting, List.nil_append]
  rw [← hnoted, ← hcalls]
  rcases hwalk with h | ⟨deepest, h⟩
  · rw [h]
  · -- failing for the limit notes nothing
    rw [h, Action.andThen]
    rcases c.noting.callEach e 1 due (state, []) with ⟨_ | _, _⟩ <;> rfl

end Callback

namespace Visitor

variable {σ ε : Type}

/-- The frames that a walk calls the visitor back for, in order, and among them the one
whose callback fails. -/
def called (v : Visitor σ ε) (limit : Option Nat) (e : Expr) (state : σ) : List Frame :=
  Walk.called limit v.callback [.pending e 1] state

/-- A walk without a limit that succeeds calls back for all nodes. -/
theorem called_none_of_ok {v : Visitor σ ε} {e : Expr} {state final : σ}
    (h : v.walk none e state = (.ok (), final)) :
    v.called none e state = e.addresses.filterMap (e.frameAt 1) := by
  obtain ⟨due, hdue, hcalled⟩ := v.callback.exists_called_eq none e state
  rw [walk_eq, traverse, Callback.traverse_none] at h
  rw [called, hcalled, hdue.eq_addresses, Callback.upToFailure_of_ok h]

end Visitor

/-! ### Counting callbacks -/

namespace Expr

theorem length_addressesBelow (i : Nat) (insides : List (List Address)) :
    (addressesBelow i insides).length = (insides.map List.length).sum := by
  induction insides generalizing i with
  | nil => rfl
  | cons inside insides ih =>
      rw [addressesBelow, List.length_append, List.length_map, ih, List.map_cons, List.sum_cons]

/-- The listing has as many nodes as the tree. -/
theorem length_addresses (e : Expr) : e.addresses.length = e.size := by
  induction e using childInduction with
  | step e ih =>
      have hchildren : (e.children.map addresses).map List.length = e.children.map size := by
        rw [List.map_map]
        exact List.map_congr_left ih
      rw [addresses_eq, List.length_append, length_addressesBelow, hchildren, size_eq,
        totalSize_eq_sum, List.length_singleton]

theorem length_called {σ ε : Type} {v : Visitor σ ε} {e : Expr} {state final : σ}
    (h : v.walk none e state = (.ok (), final)) :
    (v.called none e state).length = e.nodeCount := by
  rw [Visitor.called_none_of_ok h, nodeCount_eq_size, ← length_addresses]
  exact (forall₂_frameAt (fun _ ha => mem_addresses.mp ha) 1).length_eq.symm

/-- A tree has one node more than its children together, and one level more than the
highest of them; it has at least one level and at least one node on each level. The nodes
are as many as the callbacks of a walk without a limit that succeeds. A tree without
children is a leaf, has one node and has one level, and no other tree is, or has. -/
theorem counts_by_children (e : Expr) :
    e.nodeCount = 1 + (e.children.map nodeCount).sum ∧
      e.depth = 1 + (e.children.map depth).foldr max 0 ∧
      1 ≤ e.depth ∧ e.depth ≤ e.nodeCount ∧
      (∀ {σ ε : Type} (v : Visitor σ ε) (state final : σ),
        v.walk none e state = (.ok (), final) → (v.called none e state).length = e.nodeCount) ∧
      (e.isLeaf = true ↔ e.children = []) ∧ (e.children = [] ↔ e.nodeCount = 1) ∧
      (e.nodeCount = 1 ↔ e.depth = 1) := by
  have hsize := e.nodeCount_eq_size
  have hheight := e.depth_eq_height
  refine ⟨e.nodeCount_eq, e.depth_eq, ?_, ?_, fun v state final => length_called, isLeaf_iff,
    ?_, ?_⟩
  · rw [hheight]
    exact e.height_pos
  · rw [hheight, hsize]
    exact e.height_le_size
  · rw [hsize, size_eq_one_iff]
  · rw [hsize, hheight, size_eq_one_iff, height_eq_one_iff]

end Expr

end ConstraintExpr
