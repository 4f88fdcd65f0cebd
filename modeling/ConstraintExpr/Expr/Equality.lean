import ConstraintExpr.Expr.Basic

/-!
# Structural equality

Two trees are equal when they have the same nodes in the same places. The
comparison keeps the pairs of subtrees still to be compared on an explicit
list, and `Expr.agree_iff` says that it decides equality.
-/

namespace ConstraintExpr.Expr

/-- Pairing trees with others never makes more nodes of them. -/
theorem totalSize_zip_le (as bs : List Expr) :
    totalSize ((as.zip bs).map Prod.fst) ≤ totalSize as := by
  induction as generalizing bs with
  | nil => simp
  | cons a as ih =>
      cases bs with
      | nil => simp [totalSize]
      | cons b bs =>
          have := ih bs
          simp only [List.zip_cons_cons, List.map_cons, totalSize]
          omega

/-- Whether each pending pair consists of equal trees. -/
def agree : List (Expr × Expr) → Bool
  | [] => true
  | (a, b) :: pending =>
      -- equal labels have equally many children, so that `zip` drops none
      a.label == b.label && agree (a.children.zip b.children ++ pending)
termination_by pending => totalSize (pending.map Prod.fst)
decreasing_by
  have bound := totalSize_zip_le a.children b.children
  simp only [List.map_append, List.map_cons, totalSize_append, totalSize, size_eq a]
  omega

/-- Lists of one length are equal when they agree position by position. -/
theorem eq_of_zip_eq {α : Type} {as bs : List α} (hlength : as.length = bs.length)
    (h : ∀ p ∈ as.zip bs, p.1 = p.2) : as = bs := by
  induction as generalizing bs with
  | nil => cases bs with
    | nil => rfl
    | cons => simp at hlength
  | cons a as ih => cases bs with
    | nil => simp at hlength
    | cons b bs =>
        have hhead : a = b := h (a, b) (by simp)
        have htail : as = bs :=
          ih (by simpa using hlength) fun p hp => h p (by simp [hp])
        rw [hhead, htail]

/-- A list agrees with itself position by position. -/
theorem eq_of_mem_zip_self {α : Type} {as : List α} {p : α × α} (hp : p ∈ as.zip as) :
    p.1 = p.2 := by
  induction as with
  | nil => simp at hp
  | cons a as ih =>
      rcases List.mem_cons.mp hp with rfl | hp
      · rfl
      · exact ih hp

/-- The pending comparison succeeds exactly when every pair is a pair of equal
trees. -/
theorem agree_iff (pending : List (Expr × Expr)) :
    agree pending = true ↔ ∀ p ∈ pending, p.1 = p.2 := by
  fun_induction agree pending with
  | case1 => simp
  | case2 a b pending ih =>
      simp only [Bool.and_eq_true, beq_iff_eq, ih, List.mem_append, List.mem_cons]
      constructor
      · -- the roots agree by their labels, the children pair by pair
        rintro ⟨hlabel, h⟩ p (rfl | hp)
        · refine eq_of_label_eq hlabel (eq_of_zip_eq ?_ fun q hq => h q (Or.inl hq))
          simp only [length_children, hlabel]
        · exact h p (Or.inr hp)
      · intro h
        -- equal roots leave pairs of one tree with itself
        have hroot : a = b := h (a, b) (Or.inl rfl)
        subst hroot
        refine ⟨rfl, fun p hp => ?_⟩
        rcases hp with hp | hp
        · exact eq_of_mem_zip_self hp
        · exact h p (Or.inr hp)

/-- Trees are compared node by node. -/
instance : DecidableEq Expr := fun a b =>
  decidable_of_iff (agree [(a, b)] = true) (by simp [agree_iff])

end ConstraintExpr.Expr
