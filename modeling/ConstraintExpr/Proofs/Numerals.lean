import ConstraintExpr.Integer.Numeral

/-!
# Canonical numerals

A canonical numeral is the usual text of the integer (`Numeral.render_eq_repr`). It
is made of digits, with a minus sign before them for negative integers
(`Numeral.toList_render`), and no two integers share one
(`Numeral.render_inj`).
-/

namespace ConstraintExpr.Numeral

theorem render_eq (n : Int) :
    render n = if n < 0 then "-" ++ n.natAbs.repr else n.natAbs.repr :=
  rfl

theorem render_eq_repr (n : Int) : render n = n.repr := by
  rw [render_eq]
  cases n with
  | ofNat m =>
      have hnonneg : ¬ Int.ofNat m < 0 := Int.not_lt.mpr (Int.natCast_nonneg m)
      rw [if_neg hnonneg]
      rfl
  | negSucc m =>
      rw [if_pos (Int.negSucc_lt_zero m)]
      rfl

theorem toList_render (n : Int) :
    (render n).toList =
      if n < 0 then '-' :: Nat.toDigits 10 n.natAbs else Nat.toDigits 10 n.natAbs := by
  rw [render_eq]
  split
  · rw [String.toList_append, Nat.toList_repr]
    rfl
  · exact Nat.toList_repr

theorem isDigit_of_mem_toDigits {n : Nat} {c : Char} (hc : c ∈ Nat.toDigits 10 n) :
    c.isDigit = true :=
  Nat.isDigit_of_mem_toDigits (by omega) (by omega) hc

theorem isDigit_or_eq_of_mem_render {n : Int} {c : Char} (hc : c ∈ (render n).toList) :
    c.isDigit = true ∨ c = '-' := by
  rw [toList_render] at hc
  split at hc
  · rcases List.mem_cons.mp hc with hsign | hdigit
    · exact .inr hsign
    · exact .inl (isDigit_of_mem_toDigits hdigit)
  · exact .inl (isDigit_of_mem_toDigits hc)

theorem render_ne_nil (n : Int) : (render n).toList ≠ [] := by
  rw [toList_render]
  split
  · exact List.cons_ne_nil _ _
  · exact Nat.toDigits_ne_nil

theorem toDigits_of_lt_ten {d : Nat} (hd : d < 10) :
    Nat.toDigits 10 d = [.ofNat ('0'.toNat + d)] := by
  revert d
  decide

theorem toDigits_injective : Function.Injective (Nat.toDigits 10) := by
  intro m n h
  have hread := congrArg (fun digits => Nat.ofDigitChars 10 digits 0) h
  simpa using hread

/-- A number is never written with a sign of its own. -/
theorem minus_cons_ne_toDigits (digits : List Char) (n : Nat) :
    '-' :: digits ≠ Nat.toDigits 10 n := by
  intro h
  have hminus : '-' ∈ Nat.toDigits 10 n := h ▸ List.mem_cons_self
  exact absurd (isDigit_of_mem_toDigits hminus) (by decide)

theorem render_inj {m n : Int} : render m = render n ↔ m = n := by
  refine ⟨fun h => ?_, fun h => h ▸ rfl⟩
  have hchars : (render m).toList = (render n).toList := congrArg String.toList h
  rw [toList_render, toList_render] at hchars
  split at hchars <;> split at hchars
  · have := toDigits_injective (List.cons.inj hchars).2
    omega
  · exact absurd hchars (minus_cons_ne_toDigits _ _)
  · exact absurd hchars.symm (minus_cons_ne_toDigits _ _)
  · have := toDigits_injective hchars
    omega

end ConstraintExpr.Numeral
