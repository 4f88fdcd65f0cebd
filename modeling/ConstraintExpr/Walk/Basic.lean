import ConstraintExpr.Journal
import ConstraintExpr.Walk.Visitor

/-!
# Walks

A walk calls a visitor back once for every node of a tree, after the children
of the node and from left to right. It stops at the first failure, and at the
first node that lies deeper than a limit.

The nodes still to be handled are frames on an explicit stack. A frame is
taken off twice: the first time its depth is checked and its children are put
on top of it, the second time its callback is called.

* `Walk.step` handles the frame on top, `Walk.run` all frames;
* `Walk.weight_step` says that each step lowers the weight of the stack by
  exactly one, which is why a walk ends;
* `Visitor.walk` walks a tree, and `Visitor.walkJournaled` also records each visit,
  just before it calls back (`Visitor.recording`). They agree on everything but the
  journal (`Visitor.walkJournaled_fst`), as walks in lockstep do
  (`Callback.Lockstep.walk`).
-/

namespace ConstraintExpr

/-- A node on the stack of a walk. -/
structure Frame where
  /-- The tree whose root is the node. -/
  expr : Expr
  /-- The level of the node in the tree walked; the root of that tree is at
  level one. -/
  depth : Nat
  /-- Whether the children of the node have been put on the stack. -/
  expanded : Bool

namespace Frame

/-- The frame of a node that has not been reached yet. -/
def pending (expr : Expr) (depth : Nat) : Frame := ⟨expr, depth, false⟩

/-- The frames that take the place of a frame when it is reached: its children,
then the node itself. -/
def expand (frame : Frame) : List Frame :=
  frame.expr.children.map (fun child => pending child (frame.depth + 1)) ++
    [{ frame with expanded := true }]

/-- How often frames are still taken off the stack on behalf of a frame: twice
for each node of a tree not reached yet, once for a node whose children are
on the stack. -/
def weight (frame : Frame) : Nat :=
  if frame.expanded then 1 else 2 * frame.expr.size

theorem weight_pending (e : Expr) (depth : Nat) : (pending e depth).weight = 2 * e.size := rfl

end Frame

/-- What a walk does at a node, whose depth it knows. -/
structure Callback (σ ε : Type) where
  /-- How the failures of the walk itself are reported. -/
  onTraversal : TraversalError → ε
  /-- What is done at the root of a tree at the given depth. -/
  call : Nat → Expr → Action σ ε

namespace Action

variable {σ ε : Type}

/-- Makes a record and leaves the state alone. -/
def record (entry : Record) : Action (σ × Journal) ε :=
  .update fun (state, journal) => (state, journal.push entry)

/-- Performs the action on the state and leaves the journal alone. -/
def unrecorded (a : Action σ ε) : Action (σ × Journal) ε := fun (state, journal) =>
  let (result, next) := a state
  (result, next, journal)

end Action

namespace Visitor

variable {σ ε : Type}

/-- Calls the visitor back. -/
def callback (v : Visitor σ ε) : Callback σ ε where
  onTraversal := v.onTraversal
  call _ e := v.visit e

/-- Records the visit, then calls the visitor back. The visitor has the journal at hand
and may make records of its own. -/
def recording (v : Visitor (σ × Journal) ε) : Callback (σ × Journal) ε where
  onTraversal := v.onTraversal
  call depth e := (Action.record (.event (.visit e.kind depth))).andThen (v.visit e)

theorem recording_call (v : Visitor (σ × Journal) ε) (depth : Nat) (e : Expr) :
    v.recording.call depth e =
      (Action.record (.event (.visit e.kind depth))).andThen (v.visit e) :=
  rfl

/-- The visitor with a journal at hand that it leaves alone. -/
def unrecorded (v : Visitor σ ε) : Visitor (σ × Journal) ε :=
  .ofVisit v.onTraversal fun e => (v.visit e).unrecorded

/-- Records the visit and nothing else, then calls the visitor back. -/
def journaled (v : Visitor σ ε) : Callback (σ × Journal) ε :=
  v.unrecorded.recording

theorem journaled_call (v : Visitor σ ε) (depth : Nat) (e : Expr) :
    v.journaled.call depth e =
      (Action.record (.event (.visit e.kind depth))).andThen (Action.unrecorded (v.visit e)) := by
  rw [journaled, recording_call, unrecorded, visit_ofVisit]

end Visitor

namespace Walk

variable {σ ε : Type}

/-- The limit that a node at the given depth exceeds, if there is one and it
does. -/
def exceeded? (limit : Option Nat) (depth : Nat) : Option Nat :=
  limit.filter fun deepest => deepest < depth

/-- Handles the frame on top of the stack: the frames that are on the stack
next, or the failure. -/
def step (limit : Option Nat) (c : Callback σ ε) (frame : Frame) (below : List Frame) (state : σ) :
    Except ε (List Frame) × σ :=
  if frame.expanded then
    match c.call frame.depth frame.expr state with
    | (.ok _, state) => (.ok below, state)
    | (.error error, state) => (.error error, state)
  else
    match exceeded? limit frame.depth with
    | some deepest => (.error (c.onTraversal (.depthExceeded deepest)), state)
    | none => (.ok (frame.expand ++ below), state)

/-- The weight of a stack of frames. -/
def weight : List Frame → Nat
  | [] => 0
  | frame :: below => frame.weight + weight below

theorem weight_append (frames below : List Frame) :
    weight (frames ++ below) = weight frames + weight below := by
  induction frames with
  | nil => simp [weight]
  | cons frame frames ih => simp only [List.cons_append, weight, ih]; omega

/-- Reaching a node costs one of the two times its frame is taken off. -/
theorem weight_expand {frame : Frame} (hframe : frame.expanded = false) :
    weight frame.expand + 1 = frame.weight := by
  have children : ∀ (es : List Expr) (depth : Nat),
      weight (es.map fun e => Frame.pending e depth) = 2 * Expr.totalSize es := by
    intro es depth
    induction es with
    | nil => rfl
    | cons e es ih =>
        simp only [List.map_cons, weight, Frame.weight_pending, ih, Expr.totalSize]
        omega
  have root : weight [{ frame with expanded := true }] = 1 := rfl
  simp only [Frame.expand, weight_append, children, root, Frame.weight, hframe,
    Bool.false_eq_true, if_false, frame.expr.size_eq]
  omega

/-- A step that does not fail lowers the weight of the stack by one. -/
theorem weight_step {limit : Option Nat} {c : Callback σ ε} {frame : Frame} {below frames : List Frame}
    {state next : σ} (hstep : step limit c frame below state = (.ok frames, next)) :
    weight frames + 1 = weight (frame :: below) := by
  unfold step at hstep
  split at hstep
  · -- the node was called back, and its frame, of weight one, is gone
    next hframe =>
    split at hstep
    · simp only [Prod.mk.injEq, Except.ok.injEq] at hstep
      rw [← hstep.1, weight, Frame.weight, if_pos hframe]
      omega
    · simp at hstep
  · -- the node was reached: its children and the node itself took its place
    next hframe =>
    split at hstep
    · simp at hstep
    · simp only [Prod.mk.injEq, Except.ok.injEq] at hstep
      have hpending : frame.expanded = false := by simpa using hframe
      have := weight_expand hpending
      rw [← hstep.1, weight_append, weight]
      omega

/-- Handles the frames on the stack until none is left or one fails. -/
def run (limit : Option Nat) (c : Callback σ ε) : List Frame → σ → Except ε Unit × σ
  | [], state => (.ok (), state)
  | frame :: below, state =>
      match _hstep : step limit c frame below state with
      | (.ok frames, state) => run limit c frames state
      | (.error error, state) => (.error error, state)
termination_by frames => weight frames
decreasing_by
  have := weight_step _hstep
  omega

end Walk

/-! ### Walking a tree -/

section

variable {σ ε : Type}

/-- Does what `c` says at every node of a tree, children first and from left to
right. -/
def Callback.walk (c : Callback σ ε) (limit : Option Nat) (e : Expr) : Action σ ε :=
  Walk.run limit c [.pending e 1]

/-- Calls the visitor back for every node of a tree, children first and from
left to right. -/
def Visitor.walk (v : Visitor σ ε) (limit : Option Nat) (e : Expr) : Action σ ε :=
  v.callback.walk limit e

/-- Walks a tree and records each visit. -/
def Visitor.walkJournaled (v : Visitor σ ε) (limit : Option Nat) (e : Expr) (state : σ)
    (journal : Journal) : (Except ε Unit × σ) × Journal :=
  let (result, state, journal) := v.journaled.walk limit e (state, journal)
  ((result, state), journal)

end

/-! ### Two walks side by side -/

/-- Callbacks that have the same outcome in related states and leave related states. -/
structure Callback.Lockstep {σ τ ε : Type} (R : σ → τ → Prop) (c : Callback σ ε)
    (d : Callback τ ε) : Prop where
  onTraversal : c.onTraversal = d.onTraversal
  call : ∀ depth e {state other}, R state other →
    (c.call depth e state).1 = (d.call depth e other).1 ∧
      R (c.call depth e state).2 (d.call depth e other).2

namespace Walk

variable {σ τ ε : Type} {R : σ → τ → Prop} {c : Callback σ ε} {d : Callback τ ε}

theorem step_lockstep (hlockstep : c.Lockstep R d) (limit : Option Nat) (frame : Frame)
    (below : List Frame) {state : σ} {other : τ} (h : R state other) :
    (step limit c frame below state).1 = (step limit d frame below other).1 ∧
      R (step limit c frame below state).2 (step limit d frame below other).2 := by
  unfold step
  by_cases hframe : frame.expanded = true
  · obtain ⟨hresult, hnext⟩ := hlockstep.call frame.depth frame.expr h
    rw [if_pos hframe, if_pos hframe]
    rcases hc : c.call frame.depth frame.expr state with ⟨result, next⟩
    rcases hd : d.call frame.depth frame.expr other with ⟨_, _⟩
    rw [hc, hd] at hresult hnext
    obtain rfl : result = _ := hresult
    cases result <;> exact ⟨rfl, hnext⟩
  · rw [if_neg hframe, if_neg hframe, hlockstep.onTraversal]
    cases exceeded? limit frame.depth <;> exact ⟨rfl, h⟩

theorem run_lockstep (hlockstep : c.Lockstep R d) (limit : Option Nat) (frames : List Frame)
    {state : σ} {other : τ} (h : R state other) :
    (run limit c frames state).1 = (run limit d frames other).1 ∧
      R (run limit c frames state).2 (run limit d frames other).2 := by
  fun_induction run limit c frames state generalizing other with
  | case1 state =>
      rw [run]
      exact ⟨rfl, h⟩
  | case2 frame below state frames next hstep ih =>
      have hboth := step_lockstep hlockstep limit frame below h
      rcases hother : step limit d frame below other with ⟨_, _⟩
      rw [hstep, hother] at hboth
      obtain ⟨rfl, hnext⟩ := hboth
      rw [run, hother]
      exact ih hnext
  | case3 frame below state error next hstep =>
      have hboth := step_lockstep hlockstep limit frame below h
      rcases hother : step limit d frame below other with ⟨_, _⟩
      rw [hstep, hother] at hboth
      obtain ⟨rfl, hnext⟩ := hboth
      rw [run, hother]
      exact ⟨rfl, hnext⟩

end Walk

/-- Walks in lockstep have the same outcome and end in related states. -/
theorem Callback.Lockstep.walk {σ τ ε : Type} {R : σ → τ → Prop} {c : Callback σ ε}
    {d : Callback τ ε} (h : c.Lockstep R d) (limit : Option Nat) (e : Expr) (state : σ) (other : τ)
    (hstates : R state other) :
    (c.walk limit e state).1 = (d.walk limit e other).1 ∧
      R (c.walk limit e state).2 (d.walk limit e other).2 :=
  Walk.run_lockstep h limit [.pending e 1] hstates

/-- Recording the visits changes neither the result nor the state. -/
theorem Visitor.walkJournaled_fst {σ ε : Type} (v : Visitor σ ε) (limit : Option Nat) (e : Expr)
    (state : σ) (journal : Journal) :
    (v.walkJournaled limit e state journal).1 = v.walk limit e state := by
  have hlockstep : v.journaled.Lockstep (fun recorded state => recorded.1 = state) v.callback := by
    refine ⟨rfl, fun depth e recorded state h => ?_⟩
    subst h
    rw [journaled_call]
    exact ⟨rfl, rfl⟩
  obtain ⟨hresult, hstate⟩ := hlockstep.walk limit e (state, journal) state rfl
  exact Prod.ext hresult hstate

end ConstraintExpr
