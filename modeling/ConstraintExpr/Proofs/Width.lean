import ConstraintExpr.Proofs.Power

/-!
# Widths of powers

The width of a power is at most the width of the base times the exponent, and
more than the width of the base less one times the exponent
(`Integer.bitLength_pow_le`, `Integer.lt_bitLength_pow`). The product decides
which powers are refused, so that

* no power that is computed is wider than two to the twenty-fourth bits
  (`Eval.power_exact`);
* a power that is refused may be narrower than that, though never so narrow as
  half of it (`Eval.power_refusal`).

`Eval.width_estimate` says how good the estimate is for all powers.
-/

namespace ConstraintExpr

/-! ### Widths -/

theorem size_pow_le (a : Nat) {n : Nat} (hn : n ≠ 0) : (a ^ n).size ≤ a.size * n := by
  have hlt : a ^ n < (2 ^ a.size) ^ n := Nat.pow_lt_pow_left a.lt_size_self hn
  rw [← Nat.pow_mul] at hlt
  exact Nat.size_le.mpr hlt

theorem lt_size_pow {a : Nat} (ha : a ≠ 0) (n : Nat) : (a.size - 1) * n < (a ^ n).size := by
  have hpos : 0 < a.size := Nat.size_pos.mpr (Nat.pos_of_ne_zero ha)
  have hle : 2 ^ (a.size - 1) ≤ a := Nat.lt_size.mp (Nat.sub_lt hpos Nat.one_pos)
  rw [Nat.lt_size, Nat.pow_mul]
  exact Nat.pow_le_pow_left hle n

namespace Integer

/-- The width is the number of bits that the magnitude needs, which is none for zero. -/
theorem bitLength_eq_iff {n : Int} {w : Nat} :
    bitLength n = w ↔
      n.natAbs < 2 ^ w ∧ (n ≠ 0 → 2 ^ (w - 1) ≤ n.natAbs) ∧ (n = 0 → w = 0) := by
  rw [bitLength_eq_size]
  constructor
  · rintro rfl
    refine ⟨n.natAbs.lt_size_self, fun hne => ?_, fun hzero => ?_⟩
    · have hpos : 0 < n.natAbs.size := Nat.size_pos.mpr (Int.natAbs_pos.mpr hne)
      exact Nat.lt_size.mp (Nat.sub_lt hpos Nat.one_pos)
    · rw [hzero]
      rfl
  · rintro ⟨hlt, hle, hzero⟩
    have hupper : n.natAbs.size ≤ w := Nat.size_le.mpr hlt
    by_cases hn : n = 0
    · have hw := hzero hn
      omega
    · have hlower : w - 1 < n.natAbs.size := Nat.lt_size.mpr (hle hn)
      omega

theorem bitLength_pow (base : Int) (n : Nat) :
    bitLength (base ^ n) = (base.natAbs ^ n).size := by
  rw [bitLength_eq_size, Int.natAbs_pow]

theorem bitLength_pow_le (base : Int) {n : Nat} (hn : n ≠ 0) :
    bitLength (base ^ n) ≤ bitLength base * n := by
  rw [bitLength_pow, bitLength_eq_size]
  exact size_pow_le base.natAbs hn

theorem lt_bitLength_pow {base : Int} (hbase : base ≠ 0) (n : Nat) :
    (bitLength base - 1) * n < bitLength (base ^ n) := by
  rw [bitLength_pow, bitLength_eq_size]
  exact lt_size_pow (Int.natAbs_ne_zero.mpr hbase) n

theorem bitLength_two_pow (n : Nat) : bitLength (2 ^ n) = n + 1 := by
  rw [bitLength_pow]
  exact Nat.size_pow

theorem two_le_bitLength {n : Int} (h : 2 ≤ n.natAbs) : 2 ≤ bitLength n := by
  rw [bitLength_eq_size]
  exact Nat.lt_size.mpr h

/-- Powers of zero, one and minus one have one bit at most. -/
theorem bitLength_pow_le_one {base : Int} (hbase : base.natAbs ≤ 1) (n : Nat) :
    bitLength (base ^ n) ≤ 1 := by
  rw [bitLength_pow, size_le_one_iff, ← Nat.one_pow n]
  exact Nat.pow_le_pow_left hbase n

end Integer

namespace Eval

open Integer

/-! ### The powers that are computed -/

theorem power_of_neg {base exponent : Int} (h : exponent < 0) :
    power base exponent = .error .negativeExponent := by
  rw [power_eq, Meaning.power, if_pos h]

theorem power_of_natAbs_le_one {base exponent : Int} (hexponent : 0 ≤ exponent)
    (hbase : base.natAbs ≤ 1) : power base exponent = .ok (base ^ exponent.toNat) := by
  rw [power_eq, Meaning.power, if_neg (Int.not_lt.mpr hexponent), if_neg (by omega)]

/-- For all other bases the width of the base times the exponent decides. -/
theorem power_of_two_le_natAbs {base exponent : Int} (hbase : 2 ≤ base.natAbs)
    (hexponent : 0 ≤ exponent) :
    power base exponent =
      if 2 ^ 24 < bitLength base * exponent.toNat then .error (.exponentTooLarge exponent)
      else .ok (base ^ exponent.toNat) := by
  rw [power_eq, Meaning.power, if_neg (Int.not_lt.mpr hexponent), bitLength_eq_size]
  simp only [show 1 < base.natAbs from hbase, true_and]

/-- A power is refused for the size of its exponent only if the product of width
and exponent exceeds the bound. -/
theorem power_cases (base exponent : Int) :
    exponent < 0 ∧ power base exponent = .error .negativeExponent ∨
      0 ≤ exponent ∧ power base exponent = .ok (base ^ exponent.toNat) ∧
        (base.natAbs ≤ 1 ∨ bitLength base * exponent.toNat ≤ 2 ^ 24) ∨
      0 ≤ exponent ∧ power base exponent = .error (.exponentTooLarge exponent) ∧
        2 ≤ base.natAbs ∧ 2 ^ 24 < bitLength base * exponent.toNat := by
  rcases lt_or_ge exponent 0 with hneg | hexponent
  · exact .inl ⟨hneg, power_of_neg hneg⟩
  rcases Nat.lt_or_ge 1 base.natAbs with hbase | hbase
  · have hpower := power_of_two_le_natAbs hbase hexponent
    by_cases hwide : 2 ^ 24 < bitLength base * exponent.toNat
    · rw [if_pos hwide] at hpower
      exact .inr (.inr ⟨hexponent, hpower, hbase, hwide⟩)
    · rw [if_neg hwide] at hpower
      exact .inr (.inl ⟨hexponent, hpower, .inr (Nat.not_lt.mp hwide)⟩)
  · exact .inr (.inl ⟨hexponent, power_of_natAbs_le_one hexponent hbase, .inl hbase⟩)

theorem power_eq_negativeExponent_iff {base exponent : Int} :
    power base exponent = .error .negativeExponent ↔ exponent < 0 := by
  rcases power_cases base exponent with
    ⟨hneg, hpower⟩ | ⟨hexponent, hpower, _⟩ | ⟨hexponent, hpower, _⟩
  · simp [hpower, hneg]
  · simp [hpower, hexponent]
  · simp [hpower, hexponent]

/-- What is computed is the power, and it keeps to the bound. -/
theorem eq_pow_of_power {base exponent v : Int} (h : power base exponent = .ok v) :
    v = base ^ exponent.toNat ∧ bitLength v ≤ 2 ^ 24 := by
  rcases power_cases base exponent with ⟨_, hfail⟩ | ⟨_, hpower, hbound⟩ | ⟨_, hfail, _⟩
  · rw [hfail] at h
    cases h
  · rw [hpower] at h
    cases h
    refine ⟨rfl, ?_⟩
    rcases hbound with hbase | hbound
    · exact (bitLength_pow_le_one hbase exponent.toNat).trans (by decide)
    · -- the product of widths is no bound for the exponent zero
      by_cases hzero : exponent.toNat = 0
      · rw [hzero, pow_zero]
        decide
      · exact (bitLength_pow_le base hzero).trans hbound
  · rw [hfail] at h
    cases h

/-- Neither a narrow base nor the exponent zero is ever refused. -/
theorem power_of_small {base exponent : Int} (hexponent : 0 ≤ exponent)
    (hsmall : base.natAbs ≤ 1 ∨ exponent = 0) :
    power base exponent = .ok (base ^ exponent.toNat) := by
  rcases power_cases base exponent with ⟨hneg, _⟩ | ⟨_, hpower, _⟩ | ⟨_, _, hbase, hwide⟩
  · omega
  · exact hpower
  · rcases hsmall with hnarrow | rfl
    · omega
    · rw [Int.toNat_zero, Nat.mul_zero] at hwide
      contradiction

theorem error_of_power {base exponent : Int} {error : EvalError}
    (h : power base exponent = .error error) :
    error = .negativeExponent ∨ error = .exponentTooLarge exponent := by
  rcases power_cases base exponent with ⟨_, hpower⟩ | ⟨_, hpower, _⟩ | ⟨_, hpower, _⟩
  · rw [hpower] at h
    cases h
    exact .inl rfl
  · rw [hpower] at h
    cases h
  · rw [hpower] at h
    cases h
    exact .inr rfl

/-- Powers are exact, and never wider than two to the twenty-fourth bits. They
fail for negative exponents, and apart from that only for exponents that are too
large, which none is for zero, one and minus one. Holding the product of two
widths down to a word lets nothing over the bound pass. -/
theorem power_exact :
    (∀ base exponent : Int,
      (power base exponent = .error .negativeExponent ↔ exponent < 0) ∧
        (∀ v, power base exponent = .ok v →
          v = base ^ exponent.toNat ∧ bitLength v ≤ 2 ^ 24) ∧
        (0 ≤ exponent → base.natAbs ≤ 1 ∨ exponent = 0 → ∃ v, power base exponent = .ok v) ∧
        ∀ error, power base exponent = .error error →
          error = .negativeExponent ∨ error = .exponentTooLarge exponent) ∧
      ∀ width exponent : Nat,
        boundedProduct width exponent ≤ maxPowerBits → width * exponent ≤ 2 ^ 24 := by
  refine ⟨fun base exponent => ⟨power_eq_negativeExponent_iff, fun v => eq_pow_of_power,
    fun hexponent hsmall => ⟨_, power_of_small hexponent hsmall⟩, fun error => error_of_power⟩, ?_⟩
  intro width exponent h
  rw [← Nat.not_lt, maxPowerBits_lt_boundedProduct] at h
  exact Nat.not_lt.mp h

/-! ### The powers that are refused -/

/-- A product over the bound comes from a power of more than half its bits. -/
theorem lt_bitLength_of_lt_product {base : Int} {n : Nat} (hbase : 2 ≤ base.natAbs)
    (hwide : 2 ^ 24 < bitLength base * n) : 2 ^ 23 + 1 < bitLength (base ^ n) := by
  have hne : base ≠ 0 := by
    rintro rfl
    contradiction
  have hlt : (bitLength base - 1) * n < bitLength (base ^ n) := lt_bitLength_pow hne n
  -- the estimate is at most twice too large, since the base has two bits or more
  have hdouble : bitLength base ≤ 2 * (bitLength base - 1) := by
    have htwo := two_le_bitLength hbase
    omega
  have hhalf : bitLength base * n ≤ 2 * ((bitLength base - 1) * n) := by
    rw [← Nat.mul_assoc]
    exact Nat.mul_le_mul_right n hdouble
  omega

/-- A power is refused when the width of the base times the exponent exceeds two
to the twenty-fourth. So all powers with more bits than that are refused, but
narrower ones as well: only up to half as many bits are always computed. -/
theorem power_refusal (base exponent : Int) (hbase : 2 ≤ base.natAbs) (hexponent : 0 ≤ exponent) :
    (power base exponent = .error (.exponentTooLarge exponent) ↔
        2 ^ 24 < bitLength base * exponent.toNat) ∧
      (2 ^ 24 < bitLength (base ^ exponent.toNat) →
        power base exponent = .error (.exponentTooLarge exponent)) ∧
      (bitLength (base ^ exponent.toNat) ≤ 2 ^ 23 + 1 →
        power base exponent = .ok (base ^ exponent.toNat)) := by
  have hpower := power_of_two_le_natAbs hbase hexponent
  by_cases hwide : 2 ^ 24 < bitLength base * exponent.toNat
  · rw [if_pos hwide] at hpower
    have hlt := lt_bitLength_of_lt_product hbase hwide
    exact ⟨iff_of_true hpower hwide, fun _ => hpower, fun hle => absurd hle (Nat.not_le.mpr hlt)⟩
  · rw [if_neg hwide] at hpower
    have hle := (eq_pow_of_power hpower).2
    refine ⟨iff_of_false (by simp [hpower]) hwide, fun hlt => ?_, fun _ => hpower⟩
    exact absurd hle (Nat.not_le.mpr hlt)

/-- The widest power of two that is computed. -/
theorem power_refusal_widest :
    2 ≤ (2 : Int).natAbs ∧ (0 : Int) ≤ 8388608 ∧ power 2 8388608 = .ok (2 ^ 8388608) := by
  have hwidth : bitLength (2 ^ 8388608) ≤ 2 ^ 23 + 1 := (bitLength_two_pow 8388608).le
  exact ⟨by decide, by decide, (power_refusal 2 8388608 (by decide) (by decide)).2.2 hwidth⟩

/-- The next power of two is refused, although it has not many more than half as
many bits as the bound admits. -/
theorem power_refused_below_bound :
    power 2 8388609 = .error (.exponentTooLarge 8388609) ∧
      bitLength (2 ^ 8388609) = 2 ^ 23 + 2 := by
  have hwidth : bitLength (2 : Int) = 2 := bitLength_two_pow 1
  refine ⟨?_, bitLength_two_pow 8388609⟩
  rw [power_of_two_le_natAbs (by decide) (by decide), hwidth]
  exact if_pos (by decide)

/-! ### The estimate -/

/-- The width of an integer other than zero is the one number of bits that its magnitude
needs and no less; zero, which fits in any number of bits, has width zero. The width of
a power lies between the exponent times the width of the base less one, plus one, and
the exponent times the width of the base. So whenever the latter is over the bound and
the power refused, the power has more than half as many bits as the bound admits. -/
theorem width_estimate :
    (∀ (n : Int) (w : Nat), bitLength n = w ↔
        n.natAbs < 2 ^ w ∧ (n ≠ 0 → 2 ^ (w - 1) ≤ n.natAbs) ∧ (n = 0 → w = 0)) ∧
      (∀ (base : Int) (exponent : Nat), 2 ≤ base.natAbs → 1 ≤ exponent →
        (bitLength base - 1) * exponent + 1 ≤ bitLength (Integer.pow base exponent) ∧
          bitLength (Integer.pow base exponent) ≤ bitLength base * exponent) ∧
      ∀ base exponent : Int, power base exponent = .error (.exponentTooLarge exponent) →
        2 ^ 24 < bitLength base * exponent.toNat ∧
          2 ^ 23 < bitLength (Integer.pow base exponent.toNat) := by
  refine ⟨fun n w => bitLength_eq_iff, fun base exponent hbase hexponent => ?_,
    fun base exponent hrefused => ?_⟩
  · have hne : base ≠ 0 := by
      rintro rfl
      contradiction
    have hexponent : exponent ≠ 0 := Nat.one_le_iff_ne_zero.mp hexponent
    exact ⟨lt_bitLength_pow hne exponent, bitLength_pow_le base hexponent⟩
  · rcases power_cases base exponent with ⟨_, hpower⟩ | ⟨_, hpower, _⟩ | ⟨_, _, hbase, hwide⟩
    · rw [hpower] at hrefused
      cases hrefused
    · rw [hpower] at hrefused
      cases hrefused
    · exact ⟨hwide, (Nat.lt_succ_self _).trans (lt_bitLength_of_lt_product hbase hwide)⟩

/-- Of zero it has to be said that its width is zero: its magnitude fits in one bit as
well. -/
theorem width_of_zero_not_unique :
    ¬ ∀ w : Nat,
      (0 : Int).natAbs < 2 ^ w ∧ ((0 : Int) ≠ 0 → 2 ^ (w - 1) ≤ (0 : Int).natAbs) →
        bitLength 0 = w := by
  intro hunique
  have hone : bitLength 0 = 1 := hunique 1 (by decide)
  exact absurd hone (by decide)

end Eval

end ConstraintExpr
