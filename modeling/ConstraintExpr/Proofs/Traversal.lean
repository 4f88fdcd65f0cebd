import ConstraintExpr.Proofs.Address
import ConstraintExpr.Walk.Basic

/-!
# Walks as recursive traversals

The traversal of a tree is written by recursion: at a node it checks the depth,
traverses the children one level deeper from left to right, and calls back for
the node, up to the first failure (`Callback.traverse_eq`).

* `Walk.run_eq` says what a stack of frames still stands for, and
  `Callback.walk_eq` is the case of the one frame that a walk starts with;
* `Callback.traverse_follows` says which nodes are called back for: a first part
  of the post-order listing, and all of it unless the limit is exceeded;
* `Callback.traverse_within` compares a limit with none.
-/

namespace ConstraintExpr

/-! ### Sequences of actions -/

namespace Action

variable {σ ε : Type}

/-- Performs actions one after another, up to the first failure. -/
def sequence : List (Action σ ε) → Action σ ε
  | [] => skip
  | a :: as => a.andThen (sequence as)

@[simp] theorem skip_andThen (a : Action σ ε) : skip.andThen a = a := rfl

@[simp] theorem fail_andThen (error : ε) (a : Action σ ε) :
    (fail error : Action σ ε).andThen a = fail error := rfl

@[simp] theorem andThen_skip (a : Action σ ε) : a.andThen skip = a := by
  funext state
  unfold andThen
  rcases a state with ⟨_ | _, _⟩ <;> rfl

theorem andThen_assoc (a b c : Action σ ε) :
    (a.andThen b).andThen c = a.andThen (b.andThen c) := by
  funext state
  unfold andThen
  rcases a state with ⟨_ | _, _⟩ <;> rfl

theorem sequence_append (as bs : List (Action σ ε)) :
    sequence (as ++ bs) = (sequence as).andThen (sequence bs) := by
  induction as with
  | nil => rfl
  | cons a as ih =>
      rw [List.cons_append, sequence, ih, sequence, andThen_assoc]

@[simp] theorem sequence_singleton (a : Action σ ε) : sequence [a] = a :=
  andThen_skip a

/-- Performing `a` first does not change what a failure of `a` looks like. -/
theorem andThen_of_error {a b : Action σ ε} {state next : σ} {error : ε}
    (h : a state = (.error error, next)) : a.andThen b state = (.error error, next) := by
  unfold andThen
  rw [h]

theorem andThen_of_ok {a b : Action σ ε} {state next : σ} (h : a state = (.ok (), next)) :
    a.andThen b state = b next := by
  unfold andThen
  rw [h]

theorem andThen_eq_ok {a b : Action σ ε} {state final : σ}
    (h : a.andThen b state = (.ok (), final)) :
    ∃ next, a state = (.ok (), next) ∧ b next = (.ok (), final) := by
  unfold andThen at h
  cases ha : a state with
  | mk result next =>
      rw [ha] at h
      cases result with
      | ok => exact ⟨next, rfl, h⟩
      | error error => simp at h

/-- Where `a` succeeds, `b` succeeds with the same state. -/
def Within (a b : Action σ ε) : Prop :=
  ∀ state final, a state = (.ok (), final) → b state = (.ok (), final)

namespace Within

theorem refl (a : Action σ ε) : a.Within a := fun _ _ h => h

theorem fail (error : ε) (a : Action σ ε) : (Action.fail error).Within a := by
  intro state final h
  simp [Action.fail] at h

theorem andThen {a a' b b' : Action σ ε} (ha : a.Within a') (hb : b.Within b') :
    (a.andThen b).Within (a'.andThen b') := by
  intro state final h
  obtain ⟨next, hfirst, hsecond⟩ := andThen_eq_ok h
  rw [andThen_of_ok (ha _ _ hfirst)]
  exact hb _ _ hsecond

theorem sequence {α : Type} {as : List α} {f g : α → Action σ ε}
    (h : ∀ a ∈ as, (f a).Within (g a)) :
    (Action.sequence (as.map f)).Within (Action.sequence (as.map g)) := by
  induction as with
  | nil => exact refl _
  | cons a as ih =>
      exact andThen (h a List.mem_cons_self) (ih fun b hb => h b (List.mem_cons_of_mem _ hb))

end Within

end Action

/-! ### The traversal -/

namespace Callback

variable {σ ε : Type}

/-- The failure of a walk that meets a node deeper than `deepest`. -/
def failDeep (c : Callback σ ε) (deepest : Nat) : Action σ ε :=
  .fail (c.onTraversal (.depthExceeded deepest))

/-- Fails at a node that lies deeper than the limit. -/
def checkDepth (c : Callback σ ε) (limit : Option Nat) (depth : Nat) : Action σ ε :=
  match limit with
  | none => .skip
  | some deepest => if deepest < depth then c.failDeep deepest else .skip

@[simp] theorem checkDepth_none (c : Callback σ ε) (depth : Nat) :
    c.checkDepth none depth = .skip := rfl

theorem checkDepth_cases (c : Callback σ ε) (limit : Option Nat) (depth : Nat) :
    c.checkDepth limit depth = .skip ∨
      ∃ deepest, limit = some deepest ∧ deepest < depth ∧
        c.checkDepth limit depth = c.failDeep deepest := by
  cases limit with
  | none => exact .inl rfl
  | some deepest =>
      by_cases h : deepest < depth
      · exact .inr ⟨deepest, rfl, h, if_pos h⟩
      · exact .inl (if_neg h)

/-- Traverses a tree whose root lies at the given depth. -/
def traverse (c : Callback σ ε) (limit : Option Nat) (e : Expr) : Nat → Action σ ε :=
  e.fold fun e children depth =>
    (c.checkDepth limit depth).andThen
      ((Action.sequence (children.map fun child => child (depth + 1))).andThen (c.call depth e))

theorem traverse_eq (c : Callback σ ε) (limit : Option Nat) (e : Expr) (depth : Nat) :
    c.traverse limit e depth =
      (c.checkDepth limit depth).andThen
        ((Action.sequence (e.children.map fun child => c.traverse limit child (depth + 1))).andThen
          (c.call depth e)) := by
  have h := congrFun (Expr.fold_eq (fun e (children : List (Nat → Action σ ε)) depth =>
    (c.checkDepth limit depth).andThen
      ((Action.sequence (children.map fun child => child (depth + 1))).andThen
        (c.call depth e))) e) depth
  rw [List.map_map] at h
  exact h

end Callback

/-- Traverses a tree whose root lies at the given depth and calls the visitor
back. -/
def Visitor.traverse {σ ε : Type} (v : Visitor σ ε) (limit : Option Nat) (e : Expr)
    (depth : Nat) : Action σ ε :=
  v.callback.traverse limit e depth

/-! ### What a stack of frames stands for -/

/-- What is still to be done for a frame: all of the traversal for a node that
has not been reached, and only the callback after that. -/
def Frame.remainder {σ ε : Type} (c : Callback σ ε) (limit : Option Nat) (frame : Frame) :
    Action σ ε :=
  if frame.expanded then c.call frame.depth frame.expr
  else c.traverse limit frame.expr frame.depth

namespace Walk

variable {σ ε : Type}

theorem remainder_expand (c : Callback σ ε) (limit : Option Nat) (frame : Frame) :
    Action.sequence (frame.expand.map (Frame.remainder c limit)) =
      (Action.sequence (frame.expr.children.map fun child =>
        c.traverse limit child (frame.depth + 1))).andThen (c.call frame.depth frame.expr) := by
  rw [Frame.expand, List.map_append, Action.sequence_append, List.map_map, List.map_singleton,
    Action.sequence_singleton]
  rfl

theorem checkDepth_eq (c : Callback σ ε) (limit : Option Nat) (depth : Nat) :
    c.checkDepth limit depth =
      match exceeded? limit depth with
      | some deepest => c.failDeep deepest
      | none => .skip := by
  cases limit with
  | none => rfl
  | some deepest =>
      by_cases h : deepest < depth
      · have hexceeded : exceeded? (some deepest) depth = some deepest := by
          simp [exceeded?, Option.filter, h]
        rw [hexceeded, Callback.checkDepth, if_pos h]
      · have hexceeded : exceeded? (some deepest) depth = none := by
          simp [exceeded?, Option.filter, h]
        rw [hexceeded, Callback.checkDepth, if_neg h]

/-- One step does a part of what its frame stands for and leaves the rest on the
stack. -/
theorem step_remainder (c : Callback σ ε) (limit : Option Nat) (frame : Frame)
    (below : List Frame) (state : σ) :
    Action.sequence ((frame :: below).map (Frame.remainder c limit)) state =
      match step limit c frame below state with
      | (.ok frames, state) => Action.sequence (frames.map (Frame.remainder c limit)) state
      | (.error error, state) => (.error error, state) := by
  rw [List.map_cons, Action.sequence]
  unfold step
  by_cases hframe : frame.expanded = true
  · rw [if_pos hframe, Frame.remainder, if_pos hframe, Action.andThen]
    rcases c.call frame.depth frame.expr state with ⟨_ | _, _⟩ <;> rfl
  · rw [if_neg hframe, Frame.remainder, if_neg hframe, c.traverse_eq, ← remainder_expand,
      Action.andThen_assoc, ← Action.sequence_append, ← List.map_append, checkDepth_eq]
    cases exceeded? limit frame.depth <;> rfl

/-- The loop does for each frame, from the top down, what the frame stands for. -/
theorem run_eq (limit : Option Nat) (c : Callback σ ε) (frames : List Frame) (state : σ) :
    run limit c frames state =
      Action.sequence (frames.map (Frame.remainder c limit)) state := by
  fun_induction run limit c frames state with
  | case1 state => rfl
  | case2 frame below state frames next hstep ih =>
      rw [step_remainder, hstep]
      exact ih
  | case3 frame below state error next hstep =>
      rw [step_remainder, hstep]

end Walk

/-! ### The nodes called back for -/

namespace Callback

variable {σ ε : Type}

/-- Calls back for the node at an address of a tree whose root lies at the given
depth. -/
def callAt (c : Callback σ ε) (e : Expr) (depth : Nat) (a : Address) : Action σ ε :=
  match e.node? a with
  | some node => c.call (depth + a.length) node
  | none => .skip

/-- Calls back for nodes in the order given, up to the first failure. -/
def callEach (c : Callback σ ε) (e : Expr) (depth : Nat) (as : List Address) : Action σ ε :=
  .sequence (as.map (c.callAt e depth))

theorem callAt_child (c : Callback σ ε) {e child : Expr} {i : Nat}
    (hchild : e.children[i]? = some child) (depth : Nat) (a : Address) :
    c.callAt e depth (i :: a) = c.callAt child (depth + 1) a := by
  have hdepth : depth + (i :: a).length = depth + 1 + a.length := by
    rw [List.length_cons]
    omega
  rw [callAt, callAt, Expr.node?_cons hchild, hdepth]

theorem callEach_child (c : Callback σ ε) {e child : Expr} {i : Nat}
    (hchild : e.children[i]? = some child) (depth : Nat) (as : List Address) :
    c.callEach e depth (as.map (i :: ·)) = c.callEach child (depth + 1) as := by
  rw [callEach, callEach, List.map_map]
  exact congrArg _ (List.map_congr_left fun a _ => c.callAt_child hchild depth a)

theorem callEach_cons (c : Callback σ ε) (e : Expr) (depth : Nat) (a : Address)
    (as : List Address) :
    c.callEach e depth (a :: as) = (c.callAt e depth a).andThen (c.callEach e depth as) :=
  rfl

theorem callEach_append (c : Callback σ ε) (e : Expr) (depth : Nat) (as bs : List Address) :
    c.callEach e depth (as ++ bs) = (c.callEach e depth as).andThen (c.callEach e depth bs) := by
  rw [callEach, List.map_append, Action.sequence_append]
  rfl

/-- The action calls back for the listed nodes in order; with a limit, it may
stop after any of them and fail for the limit. -/
def Follows (c : Callback σ ε) (limit : Option Nat) (e : Expr) (depth : Nat)
    (listing : List Address) (act : Action σ ε) : Prop :=
  act = c.callEach e depth listing ∨
    ∃ deepest called, limit = some deepest ∧ called <+: listing ∧
      act = (c.callEach e depth called).andThen (c.failDeep deepest)

namespace Follows

variable {c : Callback σ ε} {limit : Option Nat} {e : Expr} {depth : Nat}

theorem append {as bs : List Address} {act next : Action σ ε}
    (hact : c.Follows limit e depth as act) (hnext : c.Follows limit e depth bs next) :
    c.Follows limit e depth (as ++ bs) (act.andThen next) := by
  rcases hact with rfl | ⟨deepest, called, hlimit, hcalled, rfl⟩
  · rcases hnext with rfl | ⟨deepest, called, hlimit, hcalled, rfl⟩
    · exact .inl (c.callEach_append e depth as bs).symm
    · refine .inr ⟨deepest, as ++ called, hlimit, (List.prefix_append_right_inj as).mpr hcalled, ?_⟩
      rw [callEach_append, Action.andThen_assoc]
  · refine .inr ⟨deepest, called, hlimit, hcalled.trans (List.prefix_append as bs), ?_⟩
    rw [Action.andThen_assoc, failDeep, Action.fail_andThen]

theorem child {child : Expr} {i : Nat} (hchild : e.children[i]? = some child)
    {as : List Address} {act : Action σ ε} (h : c.Follows limit child (depth + 1) as act) :
    c.Follows limit e depth (as.map (i :: ·)) act := by
  rcases h with rfl | ⟨deepest, called, hlimit, hcalled, rfl⟩
  · exact .inl (c.callEach_child hchild depth as).symm
  · refine .inr ⟨deepest, called.map (i :: ·), hlimit, hcalled.map _, ?_⟩
    rw [c.callEach_child hchild]

/-- The traversals of the children from number `i` on, one after another. -/
theorem children {i : Nat} {rest : List Expr} (hrest : e.children.drop i = rest)
    (act : Expr → Action σ ε)
    (hact : ∀ child ∈ rest, c.Follows limit child (depth + 1) child.addresses (act child)) :
    c.Follows limit e depth (Expr.addressesBelow i (rest.map Expr.addresses))
      (.sequence (rest.map act)) := by
  induction rest generalizing i with
  | nil => exact .inl rfl
  | cons first rest ih =>
      obtain ⟨hfirst, hnext⟩ := Expr.drop_children_eq_cons hrest
      exact (child hfirst (hact first List.mem_cons_self)).append
        (ih hnext fun next hmem => hact next (List.mem_cons_of_mem _ hmem))

end Follows

/-- A traversal calls back for the nodes in post-order. -/
theorem traverse_follows (c : Callback σ ε) (limit : Option Nat) (e : Expr) (depth : Nat) :
    c.Follows limit e depth e.addresses (c.traverse limit e depth) := by
  induction e using Expr.childInduction generalizing depth with
  | step e ih =>
      have hchildren : c.Follows limit e depth
          (Expr.addressesBelow 0 (e.children.map Expr.addresses))
          (.sequence (e.children.map fun child => c.traverse limit child (depth + 1))) :=
        Follows.children List.drop_zero _ fun child hchild => ih child hchild (depth + 1)
      have hroot : c.Follows limit e depth [[]] (c.call depth e) := by
        refine .inl ?_
        rw [callEach, List.map_singleton, Action.sequence_singleton]
        rfl
      have hall := hchildren.append hroot
      rw [← e.addresses_eq] at hall
      rw [traverse_eq]
      rcases c.checkDepth_cases limit depth with h | ⟨deepest, hlimit, _, h⟩
      · rw [h, Action.skip_andThen]
        exact hall
      · rw [h]
        exact .inr ⟨deepest, [], hlimit, List.nil_prefix, rfl⟩

/-- A limit changes nothing about a traversal that succeeds. -/
theorem traverse_within (c : Callback σ ε) (limit : Option Nat) (e : Expr) (depth : Nat) :
    (c.traverse limit e depth).Within (c.traverse none e depth) := by
  induction e using Expr.childInduction generalizing depth with
  | step e ih =>
      rw [traverse_eq, c.traverse_eq none]
      refine Action.Within.andThen ?_ (Action.Within.andThen
        (Action.Within.sequence fun child hchild => ih child hchild (depth + 1))
        (Action.Within.refl _))
      rcases c.checkDepth_cases limit depth with h | ⟨deepest, _, _, h⟩
      · rw [h]
        exact Action.Within.refl _
      · rw [h]
        exact Action.Within.fail _ _

end Callback

/-! ### Walks -/

section

variable {σ ε : Type}

theorem Callback.walk_eq (c : Callback σ ε) (limit : Option Nat) (e : Expr) :
    c.walk limit e = c.traverse limit e 1 := by
  funext state
  have h := Walk.run_eq limit c [.pending e 1] state
  rw [List.map_singleton, Action.sequence_singleton] at h
  exact h

theorem Visitor.walk_eq (v : Visitor σ ε) (limit : Option Nat) (e : Expr) :
    v.walk limit e = v.traverse limit e 1 :=
  v.callback.walk_eq limit e

/-- The walk with its stack of frames is the recursive traversal. The nodes it
calls back for are a first part of the post-order listing: none is called twice,
children are called before their parent and siblings from left to right. -/
theorem Visitor.walk_eq_traverse (v : Visitor σ ε) (limit : Option Nat) (e : Expr) :
    v.walk limit e = v.traverse limit e 1 ∧
      ∃ called, called <+: e.addresses ∧ called.Nodup ∧ called.Pairwise Address.Before ∧
        (called = e.addresses ∧ v.walk limit e = v.callback.callEach e 1 called ∨
          ∃ deepest, limit = some deepest ∧
            v.walk limit e =
              (v.callback.callEach e 1 called).andThen (v.callback.failDeep deepest)) := by
  refine ⟨v.walk_eq limit e, ?_⟩
  rw [v.walk_eq]
  rcases v.callback.traverse_follows limit e 1 with h | ⟨deepest, called, hlimit, hcalled, h⟩
  · exact ⟨e.addresses, List.prefix_refl _, e.nodup_addresses, e.pairwise_addresses,
      .inl ⟨rfl, h⟩⟩
  · exact ⟨called, hcalled, hcalled.sublist.nodup e.nodup_addresses,
      e.pairwise_addresses.sublist hcalled.sublist, .inr ⟨deepest, hlimit, h⟩⟩

end

end ConstraintExpr
