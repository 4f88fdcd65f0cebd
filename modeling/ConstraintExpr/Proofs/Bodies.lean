import Mathlib.Tactic.Common
import ConstraintExpr.Integer.Numeral

/-!
# Signs and bodies of numerals

A numeral is a sign, which may be missing, and a body of digits and underscores.

* `Numeral.Splits` says which part of a text is which.
* `Numeral.bodyValue` is the value of a body. One more character at the end of the body
  multiplies it by the radix and adds a digit, or leaves it alone, or spoils it
  (`Numeral.bodyValue_concat_digit` and the lemmas beside it).
* `Numeral.readBody` puts sign and value together, as the native library does
  (`Numeral.read_of_splits`).
-/

namespace ConstraintExpr.Numeral

/-! ### Signs -/

/-- What can stand before the digits. -/
inductive Sign where
  | none
  | plus
  | minus

/-- The integer with the sign and the magnitude. -/
def Sign.apply : Sign → Nat → Int
  | .none, n | .plus, n => n
  | .minus, n => -n

/-- The text has the sign in front of the body. Only one character can be the sign, and
without any the body does not begin like one. -/
inductive Splits : List Char → Sign → List Char → Prop
  | minus (body) : Splits ('-' :: body) .minus body
  | plus (body) : Splits ('+' :: body) .plus body
  | none {body} : body.head? ≠ some '-' → body.head? ≠ some '+' → Splits body .none body

theorem exists_splits (text : List Char) : ∃ sign body, Splits text sign body := by
  by_cases hminus : text.head? = some '-'
  · obtain ⟨body, rfl⟩ := List.head?_eq_some_iff.mp hminus
    exact ⟨_, _, .minus body⟩
  by_cases hplus : text.head? = some '+'
  · obtain ⟨body, rfl⟩ := List.head?_eq_some_iff.mp hplus
    exact ⟨_, _, .plus body⟩
  · exact ⟨_, _, .none hminus hplus⟩

/-- A text has one sign and one body. -/
theorem Splits.unique {text body body' : List Char} {sign sign' : Sign}
    (h : Splits text sign body) (h' : Splits text sign' body') : sign = sign' ∧ body = body' := by
  cases h <;> cases h' <;> simp_all

theorem Splits.splitSign_eq {text body : List Char} {sign : Sign} (h : Splits text sign body) :
    ∃ negative, splitSign text = (negative, body) ∧
      ∀ n : Nat, (if negative then -(n : Int) else n) = sign.apply n := by
  cases h with
  | minus => exact ⟨true, rfl, fun n => rfl⟩
  | plus => exact ⟨false, rfl, fun n => rfl⟩
  | none hminus hplus =>
      refine ⟨false, ?_, fun n => rfl⟩
      fun_cases splitSign text <;> simp_all

theorem splits_minus (body : String) : Splits ("-" ++ body).toList .minus body.toList := by
  rw [String.toList_append]
  exact .minus _

theorem splits_plus (body : String) : Splits ("+" ++ body).toList .plus body.toList := by
  rw [String.toList_append]
  exact .plus _

/-! ### Digits -/

/-- A character from `first` on is told by its distance from there. -/
theorem ofNat_add_sub {first c : Char} (h : first ≤ c) :
    Char.ofNat (first.toNat + (c.toNat - first.toNat)) = c := by
  have hle : first.toNat ≤ c.toNat := h
  rw [Nat.add_sub_cancel' hle, c.ofNat_toNat]

theorem denotes_of_digitValue? {c : Char} {d : Nat} (h : digitValue? c = some d) :
    Denotes c d := by
  unfold digitValue? at h
  split at h
  case isTrue hrange =>
    cases h
    have hle : c.toNat ≤ 57 := hrange.2
    have hdenotes := Denotes.digit (show c.toNat - '0'.toNat < 10 from by grind)
    rwa [ofNat_add_sub hrange.1] at hdenotes
  split at h
  case isTrue hrange =>
    cases h
    have hle : c.toNat ≤ 122 := hrange.2
    have hdenotes := Denotes.lower (show c.toNat - 'a'.toNat < 26 from by grind)
    rwa [ofNat_add_sub hrange.1] at hdenotes
  split at h
  case isTrue hrange =>
    cases h
    have hle : c.toNat ≤ 90 := hrange.2
    have hdenotes := Denotes.upper (show c.toNat - 'A'.toNat < 26 from by grind)
    rwa [ofNat_add_sub hrange.1] at hdenotes
  cases h

theorem digitValue?_of_denotes {c : Char} {d : Nat} (h : Denotes c d) :
    digitValue? c = some d := by
  cases h with
  | digit h =>
      revert d
      decide
  | @lower d h =>
      revert d
      decide
  | @upper d h =>
      revert d
      decide

theorem digit?_eq_some_iff {radix : Nat} {c : Char} {d : Nat} :
    digit? radix c = some d ↔ Denotes c d ∧ d < radix := by
  rw [digit?, Option.filter_eq_some_iff, decide_eq_true_eq]
  exact and_congr_left' ⟨denotes_of_digitValue?, digitValue?_of_denotes⟩

theorem digit?_eq_none_iff {radix : Nat} {c : Char} :
    digit? radix c = none ↔ ∀ d < radix, ¬ Denotes c d := by
  rw [Option.eq_none_iff_forall_ne_some]
  simp only [ne_eq, digit?_eq_some_iff]
  grind

/-! ### Bodies -/

theorem accumulate_cons {radix value : Nat} {c : Char} {body : List Char} (hc : c ≠ '_') :
    accumulate radix value (c :: body) =
      (digit? radix c).bind fun d => accumulate radix (value * radix + d) body := by
  rw [accumulate.eq_3 radix value c body hc]
  cases digit? radix c <;> rfl

theorem accumulate_eq_none_iff {radix value : Nat} {body : List Char} :
    accumulate radix value body = none ↔ ∃ c ∈ body, c ≠ '_' ∧ ∀ d < radix, ¬ Denotes c d := by
  simp only [← digit?_eq_none_iff]
  fun_induction accumulate radix value body with
  | case1 value => simp
  | case2 value body ih => simpa using ih
  | case3 value c body hc d hd ih => simp [ih, hd]
  | case4 value c body hc hd => simp [hd, show c ≠ '_' from hc]

theorem accumulate_append (radix value : Nat) (before after : List Char) :
    accumulate radix value (before ++ after) =
      (accumulate radix value before).bind fun n => accumulate radix n after := by
  induction before generalizing value with
  | nil => rfl
  | cons c before ih =>
      by_cases hc : c = '_'
      · subst hc
        exact ih value
      · rw [List.cons_append, accumulate_cons hc, accumulate_cons hc, Option.bind_assoc]
        simp only [ih]

/-- What the digits of a body are worth. -/
def bodyValue (radix : Nat) (body : List Char) : Except ParseError Int :=
  (accumulate radix 0 body).elim (.error .invalidDigit) fun n => .ok n

theorem bodyValue_concat_underscore (radix : Nat) (body : List Char) :
    bodyValue radix (body ++ ['_']) = bodyValue radix body := by
  rw [bodyValue, accumulate_append]
  cases h : accumulate radix 0 body <;> simp [bodyValue, h, accumulate]

theorem bodyValue_concat_digit {radix d : Nat} {c : Char} (h : digit? radix c = some d)
    (body : List Char) :
    bodyValue radix (body ++ [c]) =
      (bodyValue radix body).map fun value : Int => value * radix + d := by
  have hc : c ≠ '_' := by
    rintro rfl
    cases h
  rw [bodyValue, accumulate_append]
  simp only [accumulate_cons hc, h]
  cases hbody : accumulate radix 0 body <;> simp [bodyValue, hbody, accumulate, Except.map]

theorem bodyValue_concat_invalid {radix : Nat} {c : Char} (hc : c ≠ '_')
    (h : digit? radix c = none) (body : List Char) :
    bodyValue radix (body ++ [c]) = .error .invalidDigit := by
  rw [bodyValue, accumulate_append]
  simp only [accumulate_cons hc, h]
  cases accumulate radix 0 body <;> rfl

/-! ### Whole texts -/

/-- What is read in a text with the sign and the body. -/
def readBody (radix : Nat) (sign : Sign) (body : List Char) : Except ParseError Int :=
  if body = [] then .error .noDigits
  else (accumulate radix 0 body).elim (.error .invalidDigit) fun n => .ok (sign.apply n)

theorem readBody_minus (radix : Nat) (body : List Char) :
    readBody radix .minus body = (readBody radix .plus body).map Neg.neg := by
  unfold readBody
  split
  · rfl
  · cases accumulate radix 0 body <;> rfl

theorem read_of_splits {radix : Nat} {text : String} {sign : Sign} {body : List Char}
    (hradix : 2 ≤ radix ∧ radix ≤ 36) (h : Splits text.toList sign body) :
    read radix text = readBody radix sign body := by
  obtain ⟨negative, hsplit, happly⟩ := h.splitSign_eq
  rw [read, if_pos hradix, hsplit]
  cases body with
  | nil => rfl
  | cons c body =>
      simp only [readBody, happly, List.cons_ne_nil, if_false]
      cases accumulate radix 0 (c :: body) <;> rfl

end ConstraintExpr.Numeral
