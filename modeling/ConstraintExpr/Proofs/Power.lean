import ConstraintExpr.Proofs.Semantics

/-!
# Widths and powers

The width of an integer is the number of bits of its magnitude, so that a power
is computed exactly when its exponent is not negative and the bound on widths
admits it (`Eval.power_eq`). The checks that come before the bound only save
work: a base of at most one bit is never wide, and an exponent that does not fit
in 32 bits is over the bound for every other base.
-/

namespace ConstraintExpr

theorem Integer.bitLength_eq_size (n : Int) : bitLength n = n.natAbs.size := by
  change (if n = 0 then 0 else n.natAbs.log2 + 1) = _
  by_cases h : n = 0
  · rw [if_pos h, h]
    rfl
  · have hne : n.natAbs ≠ 0 := Int.natAbs_ne_zero.mpr h
    rw [if_neg h]
    apply Nat.le_antisymm
    · exact Nat.lt_size.mpr (Nat.log2_self_le hne)
    · exact Nat.size_le.mpr Nat.lt_log2_self

theorem Integer.bitLength_abs (n : Int) : bitLength (Integer.abs n) = n.natAbs.size := by
  rw [bitLength_eq_size]
  rfl

theorem size_le_one_iff {n : Nat} : n.size ≤ 1 ↔ n ≤ 1 := by
  rw [Nat.size_le]
  omega

namespace Eval

theorem maxPowerBits_lt_boundedProduct {a b : Nat} :
    maxPowerBits < boundedProduct a b ↔ 2 ^ 24 < a * b := by
  unfold maxPowerBits boundedProduct
  omega

/-- Powers of zero, one and minus one depend on the parity of the exponent
only. -/
theorem pow_of_natAbs_le_one {base : Int} {n : Nat} (hbase : base.natAbs ≤ 1) (hn : n ≠ 0) :
    base ^ n = if base < 0 ∧ (n : Int).tmod 2 = 0 then 1 else base := by
  have hparity : (n : Int).tmod 2 = 0 ↔ Even n := by
    rw [Int.tmod_eq_emod_of_nonneg (Int.natCast_nonneg n), Nat.even_iff]
    omega
  have hcases : base = 0 ∨ base = 1 ∨ base = -1 := by omega
  rcases hcases with rfl | rfl | rfl
  · simp [hn]
  · simp
  · by_cases heven : Even n
    · rw [heven.neg_one_pow, if_pos ⟨by omega, hparity.mpr heven⟩]
    · rw [(Nat.not_even_iff_odd.mp heven).neg_one_pow, if_neg]
      exact fun h => heven (hparity.mp h.2)

/-- Nothing but the exact bound refuses a power with an exponent that is not
negative. -/
theorem power_eq (base exponent : Int) : power base exponent = Meaning.power base exponent := by
  unfold power Meaning.power
  rw [Integer.bitLength_abs]
  by_cases hneg : exponent < 0
  · rw [if_pos hneg, if_pos hneg]
  rw [if_neg hneg, if_neg hneg]
  obtain ⟨n, rfl⟩ := Int.eq_ofNat_of_zero_le (Int.not_lt.mp hneg)
  by_cases hzero : n = 0
  · subst hzero
    simp
  rw [if_neg (by omega)]
  by_cases hwidth : base.natAbs.size ≤ 1
  · have hbase : base.natAbs ≤ 1 := size_le_one_iff.mp hwidth
    rw [if_pos hwidth, if_neg (by omega), Integer.remainder_of_ne_zero (by omega), Int.toNat_natCast,
      pow_of_natAbs_le_one hbase hzero]
  · have hbase : 1 < base.natAbs := by
      rw [size_le_one_iff] at hwidth
      omega
    rw [if_neg hwidth, Int.toNat_natCast]
    by_cases hfits : n ≤ 4294967295
    · rw [Integer.toUnsigned32?, if_pos (by omega), Int.toNat_natCast]
      by_cases hbound : 2 ^ 24 < base.natAbs.size * n
      · rw [if_pos ⟨hbase, hbound⟩]
        exact if_pos (maxPowerBits_lt_boundedProduct.mpr hbound)
      · rw [if_neg fun h => hbound h.2]
        exact if_neg fun h => hbound (maxPowerBits_lt_boundedProduct.mp h)
    · have hbound : 2 ^ 24 < base.natAbs.size * n := by
        have hone : 1 * n ≤ base.natAbs.size * n := Nat.mul_le_mul_right n (by omega)
        omega
      rw [Integer.toUnsigned32?, if_neg (by omega), if_pos ⟨hbase, hbound⟩]

end Eval

end ConstraintExpr
