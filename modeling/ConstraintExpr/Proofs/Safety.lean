import ConstraintExpr.Proofs.CutOff
import ConstraintExpr.Proofs.Failure
import ConstraintExpr.Proofs.Reachability

/-!
# Evaluation is safe

The stack machine guards against operators without operands and against ranges
and sets in the place of values. For trees that the constructors build these
guards are never needed: `Eval.Safe` says so of one evaluation, with or without
a limit, and `Eval.safe_of_obtainable` of all of them.

Neither the operands that are taken nor the one that is left need the
constructors. They are counted for every tree (`ConstraintExpr.Proofs.Reachability`).
-/

namespace ConstraintExpr

namespace Eval

/-- What can be relied on when a tree is evaluated within a limit. -/
structure Safe (limit : Option Nat) (assignment : Assignment) (e : Expr) : Prop where
  /-- Every operator gets operands that it can be applied to. -/
  arity : ∀ op found, (evaluateWithin limit assignment e).1 ≠ .error (.invalidArity op found)
  /-- There is a callback for every node. -/
  supported : ∀ kind,
    (evaluateWithin limit assignment e).1 ≠ .error (.traversal (.unsupported kind))
  /-- Whenever a node is called back, the stack has the operands of its children. -/
  operands : ∀ frame below stack,
    Walk.Reaches limit (visitor assignment).callback ([.pending e 1], [])
        (frame :: below, stack) →
      frame.expanded = true → frame.expr.children.length ≤ stack.length
  /-- A walk that succeeds leaves one operand. -/
  one_left : ∀ stack, (visitor assignment).walk limit e [] = (.ok (), stack) →
    ∃ operand, stack = [operand]
  /-- Apart from ranges and sets, only the assignment and the limit are to blame. -/
  failure : e.isCollection = false → ∀ error,
    (evaluateWithin limit assignment e).1 = .error error →
      error.DueTo assignment ∨
        ∃ deepest, limit = some deepest ∧ deepest < e.depth ∧
          error = .traversal (.depthExceeded deepest)
  /-- A range has no value. -/
  range : (∀ deepest ∈ limit, e.depth ≤ deepest) → ∀ lo hi, e = .range lo hi →
    (evaluateWithin limit assignment e).1 = .error (.unexpectedCollection .range)
  /-- A set has no value either, but its elements may fail first. -/
  set : (∀ deepest ∈ limit, e.depth ≤ deepest) → ∀ elements, e = .set elements →
    (evaluateWithin limit assignment e).1 =
      elements.mapM (evaluate assignment) >>= fun _ => .error (.unexpectedCollection .set)

variable {limit : Option Nat} {assignment : Assignment} {e : Expr}

/-- What makes an evaluation within a limit fail. -/
theorem evaluateWithin_failure (hwellFormed : e.WellFormed) {error : EvalError}
    (h : (evaluateWithin limit assignment e).1 = .error error) :
    error.DueTo assignment ∨ (e.isCollection ∧ ∃ kind, error = .unexpectedCollection kind) ∨
      ∃ deepest, limit = some deepest ∧ deepest < e.depth ∧
        error = .traversal (.depthExceeded deepest) := by
  rcases evaluateWithin_eq_or_exceeded limit assignment e with
    heq | ⟨deepest, hlimit, hdeep, hexceeded⟩
  · rw [heq] at h
    rcases evaluate_failure hwellFormed h with hdue | hkind
    · exact .inl hdue
    · exact .inr (.inl hkind)
  · rw [hexceeded] at h
    cases h
    exact .inr (.inr ⟨deepest, hlimit, hdeep, rfl⟩)

theorem evaluateWithin_ne_error (hwellFormed : e.WellFormed) {error : EvalError}
    (hdue : ¬ error.DueTo assignment) (hkind : ∀ kind, error ≠ .unexpectedCollection kind)
    (hexceeded : ∀ deepest, error ≠ .traversal (.depthExceeded deepest)) :
    (evaluateWithin limit assignment e).1 ≠ .error error := by
  intro h
  rcases evaluateWithin_failure hwellFormed h with h | ⟨_, kind, h⟩ | ⟨deepest, _, _, h⟩
  · exact hdue h
  · exact hkind kind h
  · exact hexceeded deepest h

/-- Evaluation is safe for all trees that the constructors build. -/
theorem safe_of_obtainable (hobtainable : Obtainable e) (limit : Option Nat)
    (assignment : Assignment) : Safe limit assignment e where
  arity op found :=
    evaluateWithin_ne_error (obtainable_iff.mp hobtainable) id (fun _ => nofun) fun _ => nofun
  supported kind :=
    evaluateWithin_ne_error (obtainable_iff.mp hobtainable) id (fun _ => nofun) fun _ => nofun
  operands frame below stack h hframe := by
    rw [visitor_eq_reduction] at h
    exact Reduction.length_children_le_of_reaches h hframe
  one_left stack h := by
    rw [visitor_eq_reduction] at h
    exact List.length_eq_one_iff.mp (Reduction.length_eq_one_of_walk h)
  failure hvalue error h := by
    rcases evaluateWithin_failure (obtainable_iff.mp hobtainable) h with
      hdue | ⟨hcollection, _⟩ | hexceeded
    · exact .inl hdue
    · rw [hvalue] at hcollection
      cases hcollection
    · exact .inr hexceeded
  range hlimit lo hi he := by
    rw [evaluateWithin_of_depth_le assignment hlimit, he, evaluate_range]
  set hlimit elements he := by
    have hroot : (Expr.set elements).WellPlaced := he ▸ (obtainable_iff.mp hobtainable).wellPlaced
    rw [evaluateWithin_of_depth_le assignment hlimit, he, evaluate_set assignment hroot]

/-- A quotient by zero and a variable without a value, in a set. -/
def brokenElements : Expr :=
  .set [.var "x", .binary (.arith .div) (.constant 1) (.var "x"), .var "y"]

/-- The first of the elements that fail is the one reported. -/
theorem safe_brokenElements :
    Obtainable brokenElements ∧
      Safe (some 3) (fun id => if id = "x" then some 0 else none) brokenElements ∧
      (evaluateWithin (some 3) (fun id => if id = "x" then some 0 else none) brokenElements).1 =
        .error .divisionByZero := by
  have hobtainable : Obtainable brokenElements := obtainable_iff.mpr (by decide)
  have hsafe := safe_of_obtainable hobtainable (some 3) fun id => if id = "x" then some 0 else none
  have hlimit : ∀ deepest ∈ some 3, brokenElements.depth ≤ deepest := by
    rw [Expr.depth_eq_height]
    decide
  refine ⟨hobtainable, hsafe, ?_⟩
  rw [hsafe.set hlimit _ rfl, funext (evaluate_eq_bind _)]
  rfl

end Eval

end ConstraintExpr
