import ConstraintExpr.Proofs.CutOff
import ConstraintExpr.Proofs.Numerals
import ConstraintExpr.Proofs.Rendering

/-!
# The functional notation

The notation of a tree by recursion over the tree (`Expr.spelling`): the
arguments of an operator, of a conditional and of a set stand in parentheses
after the keyword, with the separator between any two of them.

The texts that a printer puts together on its stack are the same
(`Expr.written_eq_spelling`). So the outcome of a rendering depends on the tree,
the style and the limit, and on nothing that the printer did before
(`Printer.render_spelling`).
-/

namespace ConstraintExpr

/-! ### The notation by recursion -/

mutual

/-- The notation of a tree. -/
def Expr.spelling (style : Style) : Expr → String
  | .constant value => value.repr
  | .var id => id
  | .unary op operand => op.name ++ "(" ++ operand.spelling style ++ ")"
  | .binary op left right =>
      op.name ++ "(" ++ left.spelling style ++ style.separator ++ right.spelling style ++ ")"
  | .nary op operands => op.name ++ "(" ++ Expr.spellings style operands ++ ")"
  | .ifThenElse condition ifTrue ifFalse =>
      "if(" ++ condition.spelling style ++ style.separator ++ ifTrue.spelling style ++
        style.separator ++ ifFalse.spelling style ++ ")"
  | .range lo hi => lo.repr ++ ".." ++ hi.repr
  | .set elements => "set(" ++ Expr.spellings style elements ++ ")"

/-- The notations of trees with the separator between any two. -/
def Expr.spellings (style : Style) : List Expr → String
  | [] => ""
  | [e] => e.spelling style
  | e :: next :: rest =>
      e.spelling style ++ style.separator ++ Expr.spellings style (next :: rest)

end

namespace Expr

theorem spellings_eq_intercalate (style : Style) (es : List Expr) :
    spellings style es = style.separator.intercalate (es.map (spelling style)) := by
  induction es with
  | nil => simp [spellings]
  | cons e es ih =>
      cases es with
      | nil => simp [spellings]
      | cons next rest =>
          rw [spellings, ih, List.map_cons, List.map_cons, List.map_cons,
            String.intercalate_cons_cons]

/-- The notation of a node from the notations of its children. -/
theorem spelling_eq (style : Style) (e : Expr) :
    e.spelling style = Printer.combine style e.label (e.children.map (spelling style)) := by
  cases e <;>
    simp [spelling, spellings_eq_intercalate, label, children, Printer.combine,
      Printer.application, Numeral.render_eq_repr, String.append_assoc]

example : (Expr.ifThenElse (.binary (.member .belongs) (.var "x") (.range (-1) 2))
    (.binary (.member .avoids) (.var "y") (.set [])) (.constant 3)).spelling { spaced := false } =
      "if(in(x,-1..2),notin(y,set()),3)" := by
  decide

/-- What a printer writes for a tree is its notation. -/
theorem written_eq_spelling (style : Style) (e : Expr) : e.written style = e.spelling style := by
  induction e using childInduction with
  | step e ih => rw [written_eq, spelling_eq, List.map_congr_left ih]

end Expr

/-! ### Renderings -/

namespace Printer

theorem render_of_depth_le (p : Printer) {limit : Option Nat} {e : Expr}
    (h : ∀ deepest ∈ limit, e.depth ≤ deepest) :
    (p.render limit e).1 = .ok (e.spelling p.style) := by
  have hwalk : p.visitor.walk limit e = p.visitor.walk none e := by
    cases limit with
    | none => rfl
    | some deepest => exact p.visitor.walk_of_depth_le (h deepest rfl)
  rw [render, hwalk, walk_unlimited, Expr.written_eq_spelling]
  rfl

/-- The callbacks of a printer never fail, so that only the limit can. -/
theorem render_of_lt_depth (p : Printer) {deepest : Nat} {e : Expr} (h : deepest < e.depth) :
    (p.render (some deepest) e).1 = .error (.depthExceeded deepest) := by
  obtain ⟨_, done, _, _, hcut⟩ := p.visitor.exists_cutsOff h
  rcases hcut [] with ⟨error, final, _, _, hunlimited⟩ | ⟨final, _, hlimited⟩
  · rw [walk_unlimited] at hunlimited
    cases hunlimited
  · rw [render, hlimited]
    rfl

theorem render_eq_error_iff {p : Printer} {limit : Option Nat} {e : Expr} {error : TraversalError} :
    (p.render limit e).1 = .error error ↔
      ∃ deepest, limit = some deepest ∧ deepest < e.depth ∧ error = .depthExceeded deepest := by
  constructor
  · intro h
    by_cases hwithin : ∀ deepest ∈ limit, e.depth ≤ deepest
    · rw [p.render_of_depth_le hwithin] at h
      cases h
    · simp only [not_forall, Nat.not_le] at hwithin
      obtain ⟨deepest, hlimit, hdeep⟩ := hwithin
      obtain rfl : limit = some deepest := hlimit
      rw [p.render_of_lt_depth hdeep] at h
      exact ⟨deepest, rfl, hdeep, (Except.error.inj h).symm⟩
  · rintro ⟨deepest, rfl, hdeep, rfl⟩
    exact p.render_of_lt_depth hdeep

/-- Whatever a printer has on its stack, it writes the notation of a tree unless
the tree exceeds the limit, and the limit is then the failure. The text of a tree
is its compact notation. A walk that does not clear the stack adds this one text
to it. -/
theorem render_spelling (p : Printer) (e : Expr) :
    (∀ limit, (∀ deepest ∈ limit, e.depth ≤ deepest) →
        (p.render limit e).1 = .ok (e.spelling p.style)) ∧
      (∀ limit error, (p.render limit e).1 = .error error ↔
        ∃ deepest, limit = some deepest ∧ deepest < e.depth ∧ error = .depthExceeded deepest) ∧
      e.text = .ok (e.spelling { spaced := false }) ∧
      (∀ stack, e.text = (render { style := { spaced := false }, stack } none e).1) ∧
      ∀ stack, p.visitor.walk none e stack = (.ok (), e.spelling p.style :: stack) := by
  have hcompact : ∀ stack, (render { style := { spaced := false }, stack } none e).1 =
      .ok (e.spelling { spaced := false }) :=
    fun stack => render_of_depth_le _ fun _ hlimit => nomatch hlimit
  refine ⟨fun limit => p.render_of_depth_le, fun limit error => render_eq_error_iff,
    hcompact [], fun stack => ?_, fun stack => ?_⟩
  · rw [hcompact stack]
    exact hcompact []
  · rw [walk_unlimited, Expr.written_eq_spelling]

end Printer

end ConstraintExpr
