import Mathlib.Logic.Relation
import ConstraintExpr.Proofs.Consumption

/-!
# The configurations of a walk

A configuration is what the loop of a walk works on, the frames and the state of
the visitor. What every turn of the loop preserves holds of all configurations
that a walk reaches (`Walk.Reaches.invariant`), the last one included
(`Walk.reaches_of_run`). A walk that fails does so in a configuration that it
reaches (`Walk.exists_of_run_error`).

For stack machines, the number of results on the stack is such an invariant:
they suffice for all frames, and one is left in the end (`Reduction.Supplied`).
So no callback finds fewer results than its node has children
(`Reduction.length_children_le_of_reaches`), nothing is ever taken from what was on
the stack before the walk (`Reduction.exists_own_of_reaches`), and a walk that
succeeds leaves one result (`Reduction.length_eq_one_of_walk`).
-/

namespace ConstraintExpr

namespace Walk

variable {σ ε : Type} {limit : Option Nat} {c : Callback σ ε}

/-- A step that does not fail has called back for a node whose children are done
with, or has reached a node within the limit. -/
theorem step_eq_ok {frame : Frame} {below frames : List Frame} {state next : σ}
    (h : step limit c frame below state = (.ok frames, next)) :
    (frame.expanded = true ∧ c.call frame.depth frame.expr state = (.ok (), next) ∧
        frames = below) ∨
      (frame.expanded = false ∧ exceeded? limit frame.depth = none ∧
        frames = frame.expand ++ below ∧ next = state) := by
  unfold step at h
  by_cases hframe : frame.expanded = true
  · rw [if_pos hframe] at h
    cases hcall : c.call frame.depth frame.expr state with
    | mk result left =>
        rw [hcall] at h
        cases result with
        | error error => cases h
        | ok =>
            cases h
            exact .inl ⟨hframe, rfl, rfl⟩
  · rw [if_neg hframe] at h
    cases hexceeded : exceeded? limit frame.depth with
    | some deepest =>
        rw [hexceeded] at h
        cases h
    | none =>
        rw [hexceeded] at h
        cases h
        exact .inr ⟨Bool.eq_false_iff.mpr hframe, rfl, rfl, rfl⟩

/-- A step fails because the node on top fails or lies beyond the limit. -/
theorem step_eq_error {frame : Frame} {below : List Frame} {state next : σ} {error : ε}
    (h : step limit c frame below state = (.error error, next)) :
    (frame.expanded = true ∧ c.call frame.depth frame.expr state = (.error error, next)) ∨
      (frame.expanded = false ∧ next = state ∧
        ∃ deepest, exceeded? limit frame.depth = some deepest ∧
          error = c.onTraversal (.depthExceeded deepest)) := by
  unfold step at h
  by_cases hframe : frame.expanded = true
  · rw [if_pos hframe] at h
    cases hcall : c.call frame.depth frame.expr state with
    | mk result left =>
        rw [hcall] at h
        cases result with
        | ok => cases h
        | error error =>
            cases h
            exact .inl ⟨hframe, rfl⟩
  · rw [if_neg hframe] at h
    cases hexceeded : exceeded? limit frame.depth with
    | none =>
        rw [hexceeded] at h
        cases h
    | some deepest =>
        rw [hexceeded] at h
        cases h
        exact .inr ⟨Bool.eq_false_iff.mpr hframe, rfl, deepest, rfl, rfl⟩

/-- What the loop works on. -/
abbrev Configuration (σ : Type) := List Frame × σ

/-- One turn of the loop that does not fail. -/
inductive Turn (limit : Option Nat) (c : Callback σ ε) : Configuration σ → Configuration σ → Prop
  | intro {frame below frames state next} :
      step limit c frame below state = (.ok frames, next) →
        Turn limit c (frame :: below, state) (frames, next)

/-- The loop gets from one configuration to the other. -/
abbrev Reaches (limit : Option Nat) (c : Callback σ ε) :
    Configuration σ → Configuration σ → Prop :=
  Relation.ReflTransGen (Turn limit c)

/-- What every turn preserves holds of every configuration reached. -/
theorem Reaches.invariant {P : Configuration σ → Prop}
    (hturn : ∀ {now next}, Turn limit c now next → P now → P next) {first last : Configuration σ}
    (h : Reaches limit c first last) (hfirst : P first) : P last := by
  induction h with
  | refl => exact hfirst
  | tail _ hlast ih => exact hturn hlast ih

/-- A run that does not fail goes on until no frame is left. -/
theorem reaches_of_run {frames : List Frame} {state final : σ}
    (h : run limit c frames state = (.ok (), final)) :
    Reaches limit c (frames, state) ([], final) := by
  fun_induction run limit c frames state with
  | case1 state =>
      cases h
      exact .refl
  | case2 frame below state frames next hstep ih => exact .head (.intro hstep) (ih h)
  | case3 frame below state error next hstep => cases h

/-- A run that fails reaches a configuration in which the step fails. -/
theorem exists_of_run_error {frames : List Frame} {state final : σ} {error : ε}
    (h : run limit c frames state = (.error error, final)) :
    ∃ frame below last, Reaches limit c (frames, state) (frame :: below, last) ∧
      step limit c frame below last = (.error error, final) := by
  fun_induction run limit c frames state with
  | case1 state => cases h
  | case2 frame below state frames next hstep ih =>
      obtain ⟨top, rest, last, hreaches, hfailure⟩ := ih h
      exact ⟨top, rest, last, .head (.intro hstep) hreaches, hfailure⟩
  | case3 frame below state error next hstep =>
      cases h
      exact ⟨frame, below, state, .refl, hstep⟩

end Walk

/-! ### How many results there are -/

/-- How many results a frame takes off the stack by itself: those of the children
when the node is called back, none when it is only reached. -/
def Frame.demand (frame : Frame) : Nat :=
  if frame.expanded then frame.expr.children.length else 0

namespace Reduction

variable {α ε : Type} {r : Reduction α ε} {limit : Option Nat}

/-- The results on the stack suffice for all frames from the top down, each of
which leaves one result of its own, and one result is left in the end. -/
def Supplied : List Frame → Nat → Prop
  | [], count => count = 1
  | frame :: below, count => frame.demand ≤ count ∧ Supplied below (count - frame.demand + 1)

theorem supplied_pending (e : Expr) (depth : Nat) (below : List Frame) (count : Nat) :
    Supplied (.pending e depth :: below) count ↔ Supplied below (count + 1) := by
  show 0 ≤ count ∧ Supplied below (count - 0 + 1) ↔ _
  rw [Nat.sub_zero]
  exact and_iff_right (Nat.zero_le count)

/-- Trees to be reached leave one result each. -/
theorem supplied_map_pending (es : List Expr) (depth : Nat) (below : List Frame) (count : Nat) :
    Supplied (es.map (fun e => .pending e depth) ++ below) count ↔
      Supplied below (count + es.length) := by
  induction es generalizing count with
  | nil => rfl
  | cons e es ih =>
      rw [List.map_cons, List.cons_append, supplied_pending, ih, List.length_cons,
        Nat.add_right_comm, Nat.add_assoc]

/-- The children of a node leave what the node takes. -/
theorem supplied_expand {frame : Frame} {below : List Frame} {count : Nat}
    (hframe : frame.expanded = false) :
    Supplied (frame.expand ++ below) count ↔ Supplied (frame :: below) count := by
  have hdemand : frame.demand = 0 := by
    rw [Frame.demand, hframe]
    rfl
  have hexpanded : Frame.demand { frame with expanded := true } = frame.expr.children.length := rfl
  rw [Frame.expand, List.append_assoc, supplied_map_pending, List.singleton_append, Supplied,
    Supplied, hexpanded, hdemand, Nat.add_sub_cancel, Nat.sub_zero]
  simp only [Nat.le_add_left, Nat.zero_le, true_and]

/-- A walk fails because some node cannot be combined from what is taken, or because
of the limit. -/
theorem combine_of_walk_error {e : Expr} {stack final : List α} {error : ε}
    (h : r.visitor.walk limit e stack = (.error error, final)) :
    (∃ label taken, r.combine label taken = .error error) ∨
      ∃ deepest, limit = some deepest ∧ error = r.onTraversal (.depthExceeded deepest) := by
  obtain ⟨frame, below, last, _, hstep⟩ := Walk.exists_of_run_error h
  rcases Walk.step_eq_error hstep with ⟨_, hcall⟩ | ⟨_, _, deepest, hexceeded, rfl⟩
  · exact .inl ⟨_, _, visit_eq_error_iff.mp (congrArg Prod.fst hcall)⟩
  · exact .inr ⟨deepest, (Option.filter_eq_some_iff.mp hexceeded).1, rfl⟩

theorem supplied_of_turn {now next : Walk.Configuration (List α)}
    (hturn : Walk.Turn limit r.visitor.callback now next) (h : Supplied now.1 now.2.length) :
    Supplied next.1 next.2.length := by
  cases hturn with
  | @intro frame below frames stack left hstep =>
      rcases Walk.step_eq_ok hstep with ⟨hframe, hcall, rfl⟩ | ⟨hframe, _, rfl, rfl⟩
      · have hdemand : frame.demand = frame.expr.children.length := if_pos hframe
        have hrest := h.2
        rw [hdemand, ← length_visit hcall] at hrest
        exact hrest
      · exact (supplied_expand hframe).mpr h

theorem supplied_of_reaches {e : Expr} {frames : List Frame} {stack : List α}
    (h : Walk.Reaches limit r.visitor.callback ([.pending e 1], []) (frames, stack)) :
    Supplied frames stack.length :=
  Walk.Reaches.invariant (P := fun now => Supplied now.1 now.2.length) supplied_of_turn h
    ((supplied_pending e 1 [] 0).mpr rfl)

/-- A callback finds at least as many results as its node has children. -/
theorem length_children_le_of_reaches {e : Expr} {frame : Frame} {below : List Frame}
    {stack : List α}
    (h : Walk.Reaches limit r.visitor.callback ([.pending e 1], []) (frame :: below, stack))
    (hframe : frame.expanded = true) : frame.expr.children.length ≤ stack.length := by
  have hdemand : frame.demand = frame.expr.children.length := if_pos hframe
  rw [← hdemand]
  exact (supplied_of_reaches h).1

/-- Whatever is on the stack when a walk begins stays there below the results of the
walk itself, which are those that the walk has on an empty stack. -/
theorem exists_own_of_reaches {e : Expr} {below : List α} {frames : List Frame} {stack : List α}
    (h : Walk.Reaches limit r.visitor.callback ([.pending e 1], below) (frames, stack)) :
    ∃ own, stack = own ++ below ∧
      Walk.Reaches limit r.visitor.callback ([.pending e 1], []) (frames, own) := by
  refine Walk.Reaches.invariant (P := fun now => ∃ own, now.2 = own ++ below ∧
    Walk.Reaches limit r.visitor.callback ([.pending e 1], []) (now.1, own)) ?_ h ⟨[], rfl, .refl⟩
  rintro _ _ ⟨hstep⟩ ⟨own, rfl, hreaches⟩
  rename_i frame rest frames next
  rcases Walk.step_eq_ok hstep with ⟨hframe, hcall, rfl⟩ | ⟨hframe, hlimit, rfl, rfl⟩
  · have happend := r.visit_append (length_children_le_of_reaches hreaches hframe) below
    have hvisit : r.visitor.visit frame.expr (own ++ below) = (.ok (), next) := hcall
    rw [happend] at hvisit
    cases hown : r.visitor.visit frame.expr own with
    | mk result left =>
        rw [hown] at hvisit
        cases hvisit
        refine ⟨left, rfl, hreaches.tail (.intro ?_)⟩
        simp [Walk.step, hframe, Visitor.callback, hown]
  · refine ⟨own, rfl, hreaches.tail (.intro ?_)⟩
    simp [Walk.step, hframe, hlimit]

/-- A walk that succeeds on an empty stack leaves one result. -/
theorem length_eq_one_of_walk {e : Expr} {stack : List α}
    (h : r.visitor.walk limit e [] = (.ok (), stack)) : stack.length = 1 :=
  supplied_of_reaches (Walk.reaches_of_run h)

end Reduction

end ConstraintExpr
