import Mathlib.Data.List.Induction
import Mathlib.Tactic.Common
import ConstraintExpr.Proofs.Bodies
import ConstraintExpr.Proofs.Numerals

/-!
# What is assumed of the library of integers

The native library keeps the laws (`Integer.Library.native_documented`), and integers are
the same with every other library that keeps them (`Integer.Library.Documented.agree`).
So what is proved with the native library holds with any that is as its documentation
says.

* `Integer.Library.ReadingLaws.read_eq`: the induction is on the text, from its last
  character.
* `Integer.Library.WritingLaws.write_eq`: the induction is on the number, from its tenth.
* `Integer.Truncated.eq_tdiv_tmod`: what is said of the quotient and the remainder
  determines them.
-/

namespace ConstraintExpr

namespace Integer

/-! ### Truncated division -/

theorem truncated_tdiv_tmod (x : Int) {y : Int} (hy : y ≠ 0) :
    Truncated x y (x.tdiv y) (x.tmod y) where
  identity := Int.tdiv_mul_add_tmod x y
  bound := by
    rw [Int.natAbs_tmod]
    exact Nat.mod_lt _ (Int.natAbs_pos.mpr hy)
  sign := by
    by_cases hdvd : y ∣ x
    · exact .inl (Int.tmod_eq_zero_of_dvd hdvd)
    · exact .inr (by rw [Int.sign_tmod, if_neg hdvd])

/-- No other numbers can be the quotient and the remainder. -/
theorem Truncated.eq_tdiv_tmod {x y q r : Int} (h : Truncated x y q r) :
    q = x.tdiv y ∧ r = x.tmod y := by
  obtain ⟨hidentity, hbound, hsign⟩ := h
  have hy : y ≠ 0 := by omega
  have hswapped : r + y * q = x := by rw [Int.mul_comm, Int.add_comm, hidentity]
  -- the remainder is not negative for one half of the dividends, not positive for the other
  rcases Int.le_total 0 x with hx | hx
  · have hr : 0 ≤ r := by
      rcases hsign with rfl | hsign
      · exact Int.le_refl 0
      · exact Int.sign_nonneg_iff.mp (hsign ▸ Int.sign_nonneg_iff.mpr hx)
    obtain ⟨hq, hr⟩ := (Int.tdiv_tmod_unique hx hy).mpr ⟨hswapped, hr, by omega⟩
    exact ⟨hq.symm, hr.symm⟩
  · have hr : r ≤ 0 := by
      rcases hsign with rfl | hsign
      · exact Int.le_refl 0
      · exact Int.sign_nonpos_iff.mp (hsign ▸ Int.sign_nonpos_iff.mpr hx)
    obtain ⟨hq, hr⟩ := (Int.tdiv_tmod_unique' hx hy).mpr ⟨hswapped, by omega, hr⟩
    exact ⟨hq.symm, hr.symm⟩

namespace Library

open Numeral

/-! ### The native library -/

theorem native_magnitude {radix : Nat} (hradix : 2 ≤ radix ∧ radix ≤ 36) (body : String) :
    native.magnitude radix body = bodyValue radix body.toList := by
  unfold magnitude
  split
  case isTrue hbody =>
    subst hbody
    rfl
  case isFalse hbody =>
    have hne : body.toList ≠ [] := fun hnil => hbody (String.toList_injective hnil)
    exact (read_of_splits hradix (splits_plus body)).trans (if_neg hne)

theorem native_readingLaws : native.ReadingLaws where
  read_unsupported hradix := if_neg hradix
  read_unsigned {radix text} hminus hplus := by
    by_cases hradix : 2 ≤ radix ∧ radix ≤ 36
    · exact (read_of_splits hradix (.none hminus hplus)).trans
        (read_of_splits hradix (splits_plus text)).symm
    · exact (if_neg hradix).trans (if_neg hradix).symm
  read_minus {radix body} := by
    change Numeral.read radix _ = (Numeral.read radix _).map Neg.neg
    by_cases hradix : 2 ≤ radix ∧ radix ≤ 36
    · rw [read_of_splits hradix (splits_minus body), read_of_splits hradix (splits_plus body),
        readBody_minus]
    · rw [Numeral.read, Numeral.read, if_neg hradix, if_neg hradix]
      rfl
  read_plus hradix := read_of_splits hradix (splits_plus "")
  read_underscore {radix body} hradix := by
    rw [native_magnitude hradix, native_magnitude hradix, String.toList_push,
      bodyValue_concat_underscore]
  read_digit {radix c d body} hradix hdenotes hlt := by
    rw [native_magnitude hradix, native_magnitude hradix, String.toList_push,
      bodyValue_concat_digit (digit?_eq_some_iff.mpr ⟨hdenotes, hlt⟩)]
  read_invalid {radix c body} hradix hc hdigit := by
    rw [native_magnitude hradix, String.toList_push,
      bodyValue_concat_invalid hc (digit?_eq_none_iff.mpr hdigit)]

theorem toList_write_natCast (n : Nat) : (native.write n).toList = Nat.toDigits 10 n := by
  have hwritten := toList_render n
  rwa [if_neg (Int.not_lt.mpr (Int.natCast_nonneg n)), Int.natAbs_natCast] at hwritten

theorem native_writingLaws : native.WritingLaws where
  write_digit {d} hd := by
    apply String.toList_injective
    rw [toList_write_natCast, toDigits_of_lt_ten hd, String.toList_singleton]
  write_push {n d} hn hd := by
    apply String.toList_injective
    rw [String.toList_push, toList_write_natCast, toList_write_natCast,
      ← Nat.toDigits_append_toDigits (by decide) hn hd, toDigits_of_lt_ten hd]
  write_negative {n} hn := by
    have hneg : -(n : Int) < 0 := by omega
    have hnonneg : ¬ (n : Int) < 0 := by omega
    change render (-n) = "-" ++ render n
    rw [render_eq, render_eq, if_pos hneg, if_neg hnonneg, Int.natAbs_neg]

theorem native_arithmeticLaws : native.ArithmeticLaws where
  bitLength_zero := rfl
  bitLength_of_ne_zero hn := if_neg hn
  pow_zero := Int.pow_zero _
  pow_succ := Int.pow_succ _ _
  truncated hy := truncated_tdiv_tmod _ hy

theorem native_documented : native.Documented where
  toReadingLaws := native_readingLaws
  toWritingLaws := native_writingLaws
  toArithmeticLaws := native_arithmeticLaws

/-! ### Other libraries -/

variable {library other : Library}

namespace ReadingLaws

theorem magnitude_eq (h : library.ReadingLaws) (hother : other.ReadingLaws) {radix : Nat}
    (hradix : 2 ≤ radix ∧ radix ≤ 36) (body : List Char) :
    library.magnitude radix (.ofList body) = other.magnitude radix (.ofList body) := by
  induction body using List.reverseRecOn with
  | nil => rfl
  | append_singleton body c ih =>
      have hpush : String.ofList (body ++ [c]) = (String.ofList body).push c := by
        rw [String.ofList_append, String.push_eq_append, String.singleton_eq_ofList]
      rw [hpush]
      by_cases hc : c = '_'
      · rw [hc, h.read_underscore hradix, hother.read_underscore hradix, ih]
      by_cases hdigit : ∃ d, Denotes c d ∧ d < radix
      · obtain ⟨d, hdenotes, hlt⟩ := hdigit
        rw [h.read_digit hradix hdenotes hlt, hother.read_digit hradix hdenotes hlt, ih]
      · have hinvalid : ∀ d < radix, ¬ Denotes c d :=
          fun d hlt hdenotes => hdigit ⟨d, hdenotes, hlt⟩
        rw [h.read_invalid hradix hc hinvalid, hother.read_invalid hradix hc hinvalid]

theorem read_plus_eq (h : library.ReadingLaws) (hother : other.ReadingLaws) {radix : Nat}
    (hradix : 2 ≤ radix ∧ radix ≤ 36) (body : String) :
    library.read radix ("+" ++ body) = other.read radix ("+" ++ body) := by
  by_cases hbody : body = ""
  · subst hbody
    exact (h.read_plus hradix).trans (hother.read_plus hradix).symm
  · have hmagnitude := h.magnitude_eq hother hradix body.toList
    rwa [String.ofList_toList, magnitude, magnitude, if_neg hbody, if_neg hbody] at hmagnitude

/-- The laws say what is read in every text. -/
theorem read_eq (h : library.ReadingLaws) (hother : other.ReadingLaws) (radix : Nat)
    (text : String) : library.read radix text = other.read radix text := by
  by_cases hradix : 2 ≤ radix ∧ radix ≤ 36
  · obtain ⟨text, rfl⟩ : ∃ list, text = String.ofList list := ⟨_, String.ofList_toList.symm⟩
    obtain ⟨sign, body, hsplits⟩ := exists_splits text
    cases hsplits with
    | minus body =>
        rw [String.ofList_cons]
        exact h.read_minus.trans
          ((congrArg _ (h.read_plus_eq hother hradix _)).trans hother.read_minus.symm)
    | plus body =>
        rw [String.ofList_cons]
        exact h.read_plus_eq hother hradix _
    | none hminus hplus =>
        rw [← String.toList_ofList (l := text)] at hminus hplus
        rw [h.read_unsigned hminus hplus, hother.read_unsigned hminus hplus]
        exact h.read_plus_eq hother hradix _
  · rw [h.read_unsupported hradix, hother.read_unsupported hradix]

end ReadingLaws

namespace WritingLaws

theorem write_natCast_eq (h : library.WritingLaws) (hother : other.WritingLaws) (n : Nat) :
    library.write n = other.write n := by
  induction n using Nat.strongRecOn with
  | ind n ih =>
      by_cases hsmall : n < 10
      · rw [h.write_digit hsmall, hother.write_digit hsmall]
      · have hpos : 0 < n / 10 := by omega
        have hlast : n % 10 < 10 := Nat.mod_lt _ (by decide)
        rw [← Nat.div_add_mod n 10, h.write_push hpos hlast, hother.write_push hpos hlast,
          ih (n / 10) (by omega)]

/-- The laws say what is written for every integer. -/
theorem write_eq (h : library.WritingLaws) (hother : other.WritingLaws) (n : Int) :
    library.write n = other.write n := by
  rcases Int.eq_nat_or_neg n with ⟨m, rfl | rfl⟩
  · exact h.write_natCast_eq hother m
  · rcases Nat.eq_zero_or_pos m with rfl | hpos
    · exact h.write_natCast_eq hother 0
    · rw [h.write_negative hpos, hother.write_negative hpos, h.write_natCast_eq hother]

end WritingLaws

namespace ArithmeticLaws

theorem bitLength_eq (h : library.ArithmeticLaws) (hother : other.ArithmeticLaws) (n : Int) :
    library.bitLength n = other.bitLength n := by
  by_cases hn : n = 0
  · rw [hn, h.bitLength_zero, hother.bitLength_zero]
  · rw [h.bitLength_of_ne_zero hn, hother.bitLength_of_ne_zero hn]

theorem pow_eq (h : library.ArithmeticLaws) (hother : other.ArithmeticLaws) (base : Int)
    (exponent : Nat) : library.pow base exponent = other.pow base exponent := by
  induction exponent with
  | zero => rw [h.pow_zero, hother.pow_zero]
  | succ exponent ih => rw [h.pow_succ, hother.pow_succ, ih]

end ArithmeticLaws

/-- Integers are the same with any two libraries that are as the documentation says. What
the libraries make of a division by zero does not matter, for it is never asked for. -/
theorem Documented.agree (h : library.Documented) (hother : other.Documented) :
    (∀ radix text, parse radix text library = parse radix text other) ∧
      (∀ n, render n library = render n other) ∧
      (∀ n, Integer.bitLength n library = Integer.bitLength n other) ∧
      (∀ base exponent, Integer.pow base exponent library = Integer.pow base exponent other) ∧
      ∀ x y, Integer.quotient x y library = Integer.quotient x y other ∧
        Integer.remainder x y library = Integer.remainder x y other := by
  refine ⟨h.read_eq hother.toReadingLaws, h.write_eq hother.toWritingLaws,
    h.bitLength_eq hother.toArithmeticLaws, h.pow_eq hother.toArithmeticLaws, fun x y => ?_⟩
  unfold Integer.quotient Integer.remainder
  by_cases hy : y = 0
  · rw [if_pos hy, if_pos hy, if_pos hy, if_pos hy]
    exact ⟨rfl, rfl⟩
  · obtain ⟨hquotient, hremainder⟩ := (h.truncated hy).eq_tdiv_tmod
    obtain ⟨hquotient', hremainder'⟩ := (hother.truncated hy).eq_tdiv_tmod
    rw [hquotient, hremainder, hquotient', hremainder']
    exact ⟨rfl, rfl⟩

end Library

end Integer

end ConstraintExpr
