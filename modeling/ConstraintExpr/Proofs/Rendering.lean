import ConstraintExpr.Printer
import ConstraintExpr.Proofs.StackMachine

/-!
# The text of a tree

The printer is a stack machine on texts (`Printer.visitor_eq_reduction`). It writes
the text that the recursion over the tree gives (`Expr.written`): within a limit it
writes this text or none (`Printer.render_eq_written`), and without a limit it always
writes it (`Printer.render_unlimited`).
-/

namespace ConstraintExpr

namespace Printer

/-- The text of a node from the texts of its children. -/
def combine (style : Style) : Label → List String → String
  | .constant value, _ => Numeral.render value
  | .var id, _ => id
  | .unary op, arguments | .binary op, arguments | .nary op _, arguments =>
      application style op.name arguments
  | .ifThenElse, arguments => application style "if" arguments
  | .range lo hi, _ => Numeral.render lo ++ ".." ++ Numeral.render hi
  | .set _, arguments => application style "set" arguments

/-- Printing as a reduction. It never fails by itself. -/
def reduction (style : Style) : Reduction String TraversalError where
  onTraversal := id
  combine label arguments := .ok (combine style label arguments)

/-- The printer is the machine of the reduction. -/
theorem visitor_eq_reduction (p : Printer) : p.visitor = (reduction p.style).visitor := by
  refine Visitor.ext_visit rfl fun e => ?_
  rw [Reduction.visit_visitor]
  cases e <;> rfl

end Printer

/-- The text of a tree, from the texts of its children. -/
def Expr.written (style : Style) (e : Expr) : String :=
  e.fold fun e texts => Printer.combine style e.label texts

theorem Expr.written_eq (style : Style) (e : Expr) :
    e.written style = Printer.combine style e.label (e.children.map (written style)) :=
  fold_eq _ e

namespace Printer

theorem value_reduction (style : Style) (e : Expr) :
    (reduction style).value e = .ok (e.written style) := by
  induction e using Expr.childInduction with
  | step e ih =>
      have htexts : e.children.mapM (reduction style).value =
          .ok (e.children.map (Expr.written style)) := by
        rw [mapM_eq_ok_iff, List.forall₂_map_right_iff]
        exact List.forall₂_same.mpr ih
      rw [Reduction.value_eq, htexts, Expr.written_eq]
      rfl

theorem walk_unlimited (p : Printer) (e : Expr) (stack : List String) :
    p.visitor.walk none e stack = (.ok (), e.written p.style :: stack) := by
  obtain ⟨left, hwalk⟩ := (reduction p.style).exists_walk e
  have hresult := hwalk stack
  rw [value_reduction] at hresult
  rw [visitor_eq_reduction]
  exact hresult

theorem render_unlimited (p : Printer) (e : Expr) :
    p.render none e = (.ok (e.written p.style), { p with stack := [] }) := by
  rw [render, walk_unlimited]
  rfl

/-- A limit may refuse a text, but does not change it. -/
theorem render_eq_written {p : Printer} {limit : Option Nat} {e : Expr} {text : String}
    (hrender : (p.render limit e).1 = .ok text) : text = e.written p.style := by
  have hwithin := p.visitor.callback.traverse_within limit e 1
  have hunlimited := p.walk_unlimited e []
  rw [Visitor.walk_eq] at hunlimited
  unfold render at hrender
  rw [Visitor.walk_eq] at hrender
  cases hwalk : p.visitor.traverse limit e 1 [] with
  | mk result stack =>
      rw [hwalk] at hrender
      cases result with
      | error error => cases hrender
      | ok _ =>
          have hsame := hwithin [] stack hwalk
          rw [Visitor.traverse] at hunlimited
          rw [hunlimited] at hsame
          cases hsame
          exact (Except.ok.inj hrender).symm

end Printer

end ConstraintExpr
