import ConstraintExpr.Eval.Machine
import ConstraintExpr.Proofs.Preorder
import ConstraintExpr.Proofs.Traversal

/-!
# A depth limit only cuts off

A limit that the tree stays within changes nothing
(`Callback.traverse_of_height_le`). Any other limit ends the traversal when it
reaches the first node beyond the limit: all callbacks up to then are those of
the traversal without a limit (`Callback.exists_traverse_cutOff`).

* `Visitor.walk_eq_or_exceeded` and `Eval.evaluateWithin_eq_or_exceeded` compare
  the results with and without a limit;
* `Visitor.walk_cutOff` puts everything together.
-/

namespace ConstraintExpr

namespace Callback

variable {σ ε : Type}

theorem checkDepth_of_le (c : Callback σ ε) {deepest depth : Nat} (h : depth ≤ deepest) :
    c.checkDepth (some deepest) depth = .skip :=
  if_neg (Nat.not_lt.mpr h)

theorem checkDepth_of_lt (c : Callback σ ε) {deepest depth : Nat} (h : deepest < depth) :
    c.checkDepth (some deepest) depth = c.failDeep deepest :=
  if_pos h

/-- Without a limit, every node is called back for. -/
theorem traverse_none (c : Callback σ ε) (e : Expr) (depth : Nat) :
    c.traverse none e depth = c.callEach e depth e.addresses := by
  rcases c.traverse_follows none e depth with h | ⟨deepest, called, hlimit, _⟩
  · exact h
  · contradiction

/-- A limit that the tree stays within changes nothing. -/
theorem traverse_of_height_le (c : Callback σ ε) {deepest : Nat} {e : Expr} {depth : Nat}
    (h : depth + e.height ≤ deepest + 1) :
    c.traverse (some deepest) e depth = c.traverse none e depth := by
  induction e using Expr.childInduction generalizing depth with
  | step e ih =>
      have hchildren : e.children.map (fun child => c.traverse (some deepest) child (depth + 1)) =
          e.children.map fun child => c.traverse none child (depth + 1) := by
        refine List.map_congr_left fun child hchild => ih child hchild ?_
        have := Expr.height_lt_of_mem_children hchild
        omega
      have hdepth : depth ≤ deepest := by
        have := e.height_pos
        omega
      rw [traverse_eq, c.traverse_eq none, c.checkDepth_of_le hdepth, hchildren]
      rfl

/-- Without a limit, every node below the children from number `i` on is called
back for, child after child. -/
theorem sequence_traverse_none (c : Callback σ ε) {e : Expr} {i : Nat} {before after : List Expr}
    (hdrop : e.children.drop i = before ++ after) (depth : Nat) :
    Action.sequence (before.map fun child => c.traverse none child (depth + 1)) =
      c.callEach e depth (Expr.addressesBelow i (before.map Expr.addresses)) := by
  induction before generalizing i with
  | nil => rfl
  | cons first before ih =>
      obtain ⟨hfirst, hnext⟩ := Expr.drop_children_eq_cons hdrop
      rw [List.map_cons, List.map_cons, Action.sequence, ih hnext, Expr.addressesBelow,
        callEach_append, c.callEach_child hfirst, traverse_none]

/-- The limit ends the traversal of a tree that is too high when it reaches the
first node beyond the limit. -/
theorem exists_traverse_cutOff (c : Callback σ ε) {deepest : Nat} {e : Expr} {depth level : Nat}
    (hlevel : depth + level = deepest + 1) (hhigh : level < e.height) :
    ∃ first done, e.FirstReached level first ∧ e.DoneBefore first done ∧
      c.traverse (some deepest) e depth = (c.callEach e depth done).andThen (c.failDeep deepest) := by
  induction e using Expr.childInduction generalizing depth level with
  | step e ih =>
      cases level with
      | zero =>
          refine ⟨[], [], e.firstReached_root, e.doneBefore_root, ?_⟩
          rw [traverse_eq, c.checkDepth_of_lt (by omega)]
          rfl
      | succ level =>
          obtain ⟨before, child, after, hsplit, hlow, hchild⟩ := Expr.exists_children_split hhigh
          have hmem : child ∈ e.children := by
            rw [hsplit]
            exact List.mem_append_right _ List.mem_cons_self
          obtain ⟨first, done, hfirst, hdone, hcut⟩ :=
            ih child hmem (show depth + 1 + level = deepest + 1 by omega) hchild
          refine ⟨before.length :: first, _, hfirst.child hsplit hlow,
            hdone.child hsplit hfirst.isSome_node?, ?_⟩
          -- the children before are low enough to be traversed as without a limit
          have hbefore : before.map (fun low => c.traverse (some deepest) low (depth + 1)) =
              before.map fun low => c.traverse none low (depth + 1) := by
            refine List.map_congr_left fun low hmem => c.traverse_of_height_le ?_
            have := hlow low hmem
            omega
          have hdrop : e.children.drop 0 = before ++ child :: after := hsplit
          rw [traverse_eq, c.checkDepth_of_le (by omega), Action.skip_andThen, hsplit,
            List.map_append, Action.sequence_append, hbefore,
            c.sequence_traverse_none hdrop, List.map_cons, Action.sequence, hcut,
            callEach_append, c.callEach_child (Expr.getElem?_children_split hsplit), failDeep]
          simp only [Action.andThen_assoc, Action.fail_andThen]

end Callback

/-! ### Walks -/

namespace Visitor

variable {σ ε : Type}

theorem walk_of_depth_le (v : Visitor σ ε) {e : Expr} {deepest : Nat} (h : e.depth ≤ deepest) :
    v.walk (some deepest) e = v.walk none e := by
  rw [Expr.depth_eq_height] at h
  rw [walk_eq, walk_eq]
  exact v.callback.traverse_of_height_le (by omega)

/-- After the calls for the nodes `done`, the limit ends the walk; if one of the
calls fails, the walk ends there, and so does the walk without a limit. -/
def CutsOff (v : Visitor σ ε) (deepest : Nat) (e : Expr) (done : List Address) (state : σ) : Prop :=
  (∃ error final, v.callback.callEach e 1 done state = (.error error, final) ∧
      v.walk (some deepest) e state = (.error error, final) ∧
      v.walk none e state = (.error error, final)) ∨
    ∃ final, v.callback.callEach e 1 done state = (.ok (), final) ∧
      v.walk (some deepest) e state = (.error (v.onTraversal (.depthExceeded deepest)), final)

/-- The calls that a limit leaves come first in the walk without a limit. -/
theorem walk_none_of_callEach_error (v : Visitor σ ε) {e : Expr} {done : List Address}
    (hdone : done <+: e.addresses) {state final : σ} {error : ε}
    (h : v.callback.callEach e 1 done state = (.error error, final)) :
    v.walk none e state = (.error error, final) := by
  obtain ⟨rest, hrest⟩ := hdone
  rw [walk_eq, traverse, Callback.traverse_none, ← hrest, Callback.callEach_append]
  exact Action.andThen_of_error h

/-- A limit that the tree exceeds cuts the walk off when the first node beyond
the limit is reached. -/
theorem exists_cutsOff (v : Visitor σ ε) {e : Expr} {deepest : Nat} (h : deepest < e.depth) :
    ∃ first done, e.FirstReached deepest first ∧ e.DoneBefore first done ∧
      ∀ state, v.CutsOff deepest e done state := by
  rw [Expr.depth_eq_height] at h
  obtain ⟨first, done, hfirst, hdone, hcut⟩ :=
    v.callback.exists_traverse_cutOff (Nat.add_comm 1 deepest) h
  have hwalk : v.walk (some deepest) e =
      (v.callback.callEach e 1 done).andThen (v.callback.failDeep deepest) :=
    (v.walk_eq (some deepest) e).trans hcut
  refine ⟨first, done, hfirst, hdone, fun state => ?_⟩
  cases hcalls : v.callback.callEach e 1 done state with
  | mk result final =>
      cases result with
      | error error =>
          have hlimited := (congrFun hwalk state).trans (Action.andThen_of_error hcalls)
          exact .inl ⟨error, final, hcalls, hlimited,
            v.walk_none_of_callEach_error hdone.inOrder hcalls⟩
      | ok =>
          have hlimited := (congrFun hwalk state).trans (Action.andThen_of_ok hcalls)
          exact .inr ⟨final, hcalls, hlimited⟩

theorem CutsOff.not_ok {v : Visitor σ ε} {deepest : Nat} {e : Expr} {done : List Address}
    {state : σ} (h : v.CutsOff deepest e done state) (final : σ) :
    v.walk (some deepest) e state ≠ (.ok (), final) := by
  rcases h with ⟨error, _, _, hlimited, _⟩ | ⟨_, _, hlimited⟩ <;> simp [hlimited]

/-- A limit leaves the walk as it is or is the failure. -/
theorem walk_eq_or_exceeded (v : Visitor σ ε) (limit : Option Nat) (e : Expr) (state : σ) :
    v.walk limit e state = v.walk none e state ∨
      ∃ deepest final, limit = some deepest ∧ deepest < e.depth ∧
        v.walk limit e state = (.error (v.onTraversal (.depthExceeded deepest)), final) := by
  cases limit with
  | none => exact .inl rfl
  | some deepest =>
      by_cases h : deepest < e.depth
      · obtain ⟨_, done, _, _, hcut⟩ := v.exists_cutsOff h
        rcases hcut state with ⟨error, final, _, hlimited, hwalk⟩ | ⟨final, _, hlimited⟩
        · exact .inl (hlimited.trans hwalk.symm)
        · exact .inr ⟨deepest, final, rfl, h, hlimited⟩
      · exact .inl (congrFun (v.walk_of_depth_le (Nat.not_lt.mp h)) state)

end Visitor

/-! ### Evaluation -/

namespace Eval

theorem evaluateWithin_of_depth_le (assignment : Assignment) {limit : Option Nat} {e : Expr}
    (h : ∀ deepest ∈ limit, e.depth ≤ deepest) :
    (evaluateWithin limit assignment e).1 = evaluate assignment e := by
  cases limit with
  | none => rfl
  | some deepest =>
      have hwalk := (visitor assignment).walk_of_depth_le (h deepest rfl)
      rw [evaluateWithin, hwalk]
      rfl

theorem evaluateWithin_eq_or_exceeded (limit : Option Nat) (assignment : Assignment) (e : Expr) :
    (evaluateWithin limit assignment e).1 = evaluate assignment e ∨
      ∃ deepest, limit = some deepest ∧ deepest < e.depth ∧
        (evaluateWithin limit assignment e).1 = .error (.traversal (.depthExceeded deepest)) := by
  rcases (visitor assignment).walk_eq_or_exceeded limit e [] with
    h | ⟨deepest, final, hlimit, hdeep, h⟩
  · refine .inl ?_
    rw [evaluateWithin, h]
    rfl
  · refine .inr ⟨deepest, hlimit, hdeep, ?_⟩
    rw [evaluateWithin, h]
    rfl

/-- An evaluation succeeds only within a limit that the tree stays within. -/
theorem depth_le_of_evaluateWithin {deepest : Nat} {assignment : Assignment} {e : Expr} {n : Int}
    (h : (evaluateWithin (some deepest) assignment e).1 = .ok n) : e.depth ≤ deepest := by
  refine Nat.not_lt.mp fun hdeep => ?_
  obtain ⟨_, done, _, _, hcut⟩ := (visitor assignment).exists_cutsOff hdeep
  rcases hcut [] with ⟨error, final, _, hlimited, _⟩ | ⟨final, _, hlimited⟩
  all_goals
    rw [evaluateWithin, hlimited] at h
    simp [finish] at h

end Eval

/-- Without exceeding it, a limit changes nothing about a walk. When it is
exceeded, the walk fails: as without the limit if one of the callbacks fails for
the nodes that the walk is done with when it reaches the first node beyond the
limit, and for the limit after all of them otherwise. Evaluation within a limit
is evaluation or fails for the limit, and succeeds for trees within the limit
only. -/
theorem Visitor.walk_cutOff {σ ε : Type} (v : Visitor σ ε) (e : Expr) (deepest : Nat) :
    (e.depth ≤ deepest → ∀ state, v.walk (some deepest) e state = v.walk none e state) ∧
      (deepest < e.depth →
        (∀ state final, v.walk (some deepest) e state ≠ (.ok (), final)) ∧
          ∃ first done, e.FirstReached deepest first ∧ e.DoneBefore first done ∧
            (∀ a ∈ done, ¬ a <+: first) ∧ ∀ state, v.CutsOff deepest e done state) ∧
      ∀ assignment,
        ((Eval.evaluateWithin (some deepest) assignment e).1 = evaluate assignment e ∨
            (Eval.evaluateWithin (some deepest) assignment e).1 =
              .error (.traversal (.depthExceeded deepest))) ∧
          ∀ n, (Eval.evaluateWithin (some deepest) assignment e).1 = .ok n → e.depth ≤ deepest := by
  refine ⟨fun h state => congrFun (v.walk_of_depth_le h) state, fun h => ?_, fun assignment => ?_⟩
  · obtain ⟨first, done, hfirst, hdone, hcut⟩ := v.exists_cutsOff h
    exact ⟨fun state => (hcut state).not_ok, first, done, hfirst, hdone,
      fun a ha => hdone.not_above hfirst.isSome_node? ha, hcut⟩
  · refine ⟨?_, fun n => Eval.depth_le_of_evaluateWithin⟩
    rcases Eval.evaluateWithin_eq_or_exceeded (some deepest) assignment e with
      h | ⟨_, hlimit, _, h⟩
    · exact .inl h
    · cases hlimit
      exact .inr h

end ConstraintExpr
