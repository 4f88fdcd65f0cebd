import ConstraintExpr.Proofs.Nodes

/-!
# Trees that evaluate alike

Two trees evaluate alike when no assignment tells them apart: the values are
equal, and so are the failures (`Expr.EvaluatesAs`). They have the same values
when an assignment may still tell them apart by the failure that is reported
(`Expr.SameValues`).

What the builders make of value operands is compared by these relations
(`Build.Agree`), which includes that no builder refuses its node: a builder makes
every node that is well placed (`Build.makes_unary` and its siblings), and
builders after each other hand over what they make (`Build.Makes.bind`).
-/

namespace ConstraintExpr

namespace Expr

/-- Under every assignment the trees have the same value, or fail alike. -/
def EvaluatesAs (d e : Expr) : Prop :=
  ∀ assignment : Assignment, evaluate assignment d = evaluate assignment e

/-- Under every assignment the trees have the same value, or both have none. -/
def SameValues (d e : Expr) : Prop :=
  ∀ (assignment : Assignment) (n : Int),
    evaluate assignment d = .ok n ↔ evaluate assignment e = .ok n

/-! ### Operators on values -/

theorem not_isCollection_unary (op : Operator) (operand : Expr) :
    ¬ (Expr.unary op operand).isCollection :=
  Bool.false_ne_true

theorem not_isCollection_binary (op : Operator) (left right : Expr) :
    ¬ (Expr.binary op left right).isCollection :=
  Bool.false_ne_true

theorem not_isCollection_nary (op : Operator) (operands : List Expr) :
    ¬ (Expr.nary op operands).isCollection :=
  Bool.false_ne_true

theorem not_isCollection_constant (n : Int) : ¬ (Expr.constant n).isCollection :=
  Bool.false_ne_true

section

variable {op : Operator} {left right last : Expr} {f : Expr → Expr} {es : List Expr}

theorem wellPlaced_binary (harity : op.arity = .binary) (hvalue : op.isSetBelonging = false)
    (hleft : ¬ left.isCollection) (hright : ¬ right.isCollection) :
    (Expr.binary op left right).WellPlaced := by
  refine ⟨harity, hleft, ?_⟩
  rw [← isSetBelonging_iff, hvalue]
  exact iff_of_false hright Bool.false_ne_true

theorem wellPlaced_membership (membership : SetOp) (hleft : ¬ left.isCollection)
    (hright : right.isCollection) : (Expr.binary (.member membership) left right).WellPlaced :=
  ⟨rfl, hleft, iff_of_true hright ⟨membership, rfl⟩⟩

theorem wellPlaced_nary_pair (harity : op.arity = .nary) (hleft : ¬ left.isCollection)
    (hright : ¬ right.isCollection) : (Expr.nary op [left, right]).WellPlaced :=
  ⟨harity, List.cons_ne_nil left [right],
    List.forall_mem_cons.mpr ⟨hleft, List.forall_mem_singleton.mpr hright⟩⟩

theorem wellPlaced_nary_concat (harity : op.arity = .nary) (hes : ∀ e ∈ es, ¬ e.isCollection)
    (hlast : ¬ last.isCollection) : (Expr.nary op (es ++ [last])).WellPlaced :=
  ⟨harity, List.concat_ne_nil last es,
    List.forall_mem_append.mpr ⟨hes, List.forall_mem_singleton.mpr hlast⟩⟩

theorem wellPlaced_nary_map (harity : op.arity = .nary) (hf : ∀ e, ¬ (f e).isCollection)
    (hne : es ≠ []) : (Expr.nary op (es.map f)).WellPlaced := by
  refine ⟨harity, List.map_eq_nil_iff.not.mpr hne, fun operand hoperand => ?_⟩
  obtain ⟨e, _, rfl⟩ := List.mem_map.mp hoperand
  exact hf e

end

end Expr

namespace Build

variable {α β : Type}

/-- Both builders succeed, and their trees are related. -/
def Agree (related : Expr → Expr → Prop) (build other : Build Expr) : Prop :=
  ∃ d e, build.result = .ok d ∧ other.result = .ok e ∧ related d e

/-- The builder returns `a` and refuses nothing. -/
abbrev Makes (build : Build α) (a : α) : Prop :=
  build.Judges none a

theorem Makes.result_eq {build : Build α} {a : α} (h : build.Makes a) : build.result = .ok a :=
  h.result_eq_ok_iff.mpr ⟨rfl, rfl⟩

/-- Of two builders one after the other, the first one hands over what it makes. -/
theorem Makes.bind {build : Build α} {next : α → Build β} {a : α} {b : β} (hbuild : build.Makes a)
    (hnext : (next a).Makes b) : (build >>= next).Makes b :=
  Judges.bind hbuild hnext

theorem Makes.agree {build other : Build Expr} {d e : Expr} (hbuild : build.Makes d)
    (hother : other.Makes e) {related : Expr → Expr → Prop} (h : related d e) :
    Agree related build other :=
  ⟨d, e, hbuild.result_eq, hother.result_eq, h⟩

theorem Agree.related {related : Expr → Expr → Prop} {build other : Build Expr} {d e : Expr}
    (h : Agree related build other) (hd : build.result = .ok d) (he : other.result = .ok e) :
    related d e := by
  obtain ⟨d', e', hbuild, hother, h⟩ := h
  obtain rfl : d' = d := Except.ok.inj (hbuild.symm.trans hd)
  obtain rfl : e' = e := Except.ok.inj (hother.symm.trans he)
  exact h

/-- A builder that goes by the violation at the root of its node makes every node
that is well placed. -/
theorem Judges.makes {build : Build Expr} {e : Expr} (h : build.Judges e.violation e)
    (hroot : e.WellPlaced) : build.Makes e := by
  rw [Expr.violation_eq_none_iff.mpr hroot] at h
  exact h

theorem makes_unary {op : Operator} {operand : Expr} (h : (Expr.unary op operand).WellPlaced) :
    (unary op operand).Makes (.unary op operand) :=
  (judges_unary op operand).makes h

theorem makes_binary {op : Operator} {left right : Expr}
    (h : (Expr.binary op left right).WellPlaced) :
    (binary op left right).Makes (.binary op left right) :=
  (judges_binary op left right).makes h

theorem makes_rel (op : RelOp) {left right : Expr} (hleft : ¬ left.isCollection)
    (hright : ¬ right.isCollection) :
    (binary (.rel op) left right).Makes (.binary (.rel op) left right) :=
  makes_binary (Expr.wellPlaced_binary rfl rfl hleft hright)

theorem makes_nary {op : Operator} {operands : List Expr}
    (h : (Expr.nary op operands).WellPlaced) : (nary op operands).Makes (.nary op operands) :=
  (judges_nary op operands).makes h

theorem makes_not {e : Expr} (h : ¬ e.isCollection) : (not e).Makes (.unary (.logic .not) e) :=
  makes_unary ⟨rfl, h⟩

theorem makes_set {elements : List Expr} (h : (Expr.set elements).WellPlaced) :
    (set elements).Makes (.set elements) :=
  (judges_set elements).makes h

theorem makes_mapM {f : α → Build β} {g : α → β} {as : List α} (h : ∀ a ∈ as, (f a).Makes (g a)) :
    (as.mapM f).Makes (as.map g) := by
  induction as with
  | nil => exact judges_pure []
  | cons a as ih =>
      have hrest := ih fun b hb => h b (List.mem_cons_of_mem a hb)
      rw [List.mapM_cons]
      exact (h a List.mem_cons_self).bind (hrest.bind (judges_pure (g a :: as.map g)))

end Build

end ConstraintExpr
