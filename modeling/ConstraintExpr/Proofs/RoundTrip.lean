import ConstraintExpr.Proofs.Numerals
import ConstraintExpr.Proofs.Reading

/-!
# Writing and reading integers

Reading undoes writing, and of all the texts that are read as an integer the one that is
written for it is the canonical one.

* `Numeral.Canonical` is the grammar of the written texts: no leading zeros, and a minus
  sign for negative integers only.
* `Numeral.parseDecimal_render` reads back what was written, for integers of any size.
* `Numeral.canonical_iff` says that every canonical text is written for some integer.
* `Numeral.render_inverse_parseDecimal` puts them together, for every library that keeps
  the laws of reading and writing.
-/

namespace ConstraintExpr.Numeral

/-! ### Canonical texts -/

/-- Decimal digits without leading zeros. -/
structure Plain (digits : List Char) : Prop where
  ne_nil : digits ≠ []
  isDigit : ∀ c ∈ digits, c.isDigit = true
  eq_of_leading_zero : digits.head? = some '0' → digits = ['0']

/-- Plain digits, which can have a minus sign in front when they are not those of zero. -/
inductive Canonical : List Char → Prop
  | unsigned {digits} : Plain digits → Canonical digits
  | negative {digits} : Plain digits → digits ≠ ['0'] → Canonical ('-' :: digits)

/-! ### Digits of a natural number -/

theorem digit?_ten {c : Char} (hc : c.isDigit = true) :
    digit? 10 c = some (c.toNat - '0'.toNat) := by
  obtain ⟨hzero, hnine⟩ : '0' ≤ c ∧ c ≤ '9' := by
    simpa [Char.isDigit, Char.le_def] using hc
  have hle : c.toNat ≤ 57 := hnine
  have hlt : c.toNat - '0'.toNat < 10 := by grind
  have hdenotes := Denotes.digit hlt
  rw [ofNat_add_sub hzero] at hdenotes
  exact digit?_eq_some_iff.mpr ⟨hdenotes, hlt⟩

theorem ne_underscore_of_isDigit {c : Char} (hc : c.isDigit = true) : c ≠ '_' := by
  rintro rfl
  exact absurd hc (by decide)

/-- A text of digits alone is read as the decimal number that they make. -/
theorem accumulate_ten {digits : List Char} (h : ∀ c ∈ digits, c.isDigit = true) (value : Nat) :
    accumulate 10 value digits = some (Nat.ofDigitChars 10 digits value) := by
  induction digits generalizing value with
  | nil => rfl
  | cons c digits ih =>
      obtain ⟨hc, hdigits⟩ := List.forall_mem_cons.mp h
      rw [accumulate_cons (ne_underscore_of_isDigit hc), digit?_ten hc, Option.bind_some,
        ih hdigits, Nat.ofDigitChars_cons, Nat.mul_comm]

theorem accumulate_toDigits (n : Nat) : accumulate 10 0 (Nat.toDigits 10 n) = some n := by
  rw [accumulate_ten fun c => isDigit_of_mem_toDigits, Nat.ofDigitChars_ten_toDigits]

/-- No number but zero is written with a zero in front. -/
theorem head?_toDigits_ne {n : Nat} (hpos : 0 < n) : (Nat.toDigits 10 n).head? ≠ some '0' := by
  induction n using Nat.strong_induction_on with
  | h n ih =>
      by_cases hsmall : n < 10
      · have hdigit : ∀ d < 10, 0 < d → (Nat.toDigits 10 d).head? ≠ some '0' := by decide
        exact hdigit n hsmall hpos
      · rw [Nat.toDigits_of_base_le (by omega) (by omega),
          List.head?_append_of_ne_nil _ Nat.toDigits_ne_nil]
        exact ih (n / 10) (by omega) (by omega)

theorem plain_toDigits (n : Nat) : Plain (Nat.toDigits 10 n) where
  ne_nil := Nat.toDigits_ne_nil
  isDigit _ hc := isDigit_of_mem_toDigits hc
  eq_of_leading_zero hzero := by
    rcases Nat.eq_zero_or_pos n with rfl | hpos
    · rfl
    · exact absurd hzero (head?_toDigits_ne hpos)

theorem toDigits_of_isDigit {c : Char} (hc : c.isDigit = true) :
    Nat.toDigits 10 (c.toNat - '0'.toNat) = [c] := by
  have hlt : c.toNat - '0'.toNat < 10 := (digit?_eq_some_iff.mp (digit?_ten hc)).2
  have hzero : '0' ≤ c := by
    simp only [Char.isDigit, Bool.and_eq_true, decide_eq_true_eq] at hc
    exact hc.1
  rw [toDigits_of_lt_ten hlt, ofNat_add_sub hzero]

/-- Digits that follow those of a positive number continue it. -/
theorem toDigits_append {n : Nat} (hpos : 0 < n) {digits : List Char}
    (h : ∀ c ∈ digits, c.isDigit = true) :
    Nat.toDigits 10 n ++ digits = Nat.toDigits 10 (Nat.ofDigitChars 10 digits n) := by
  induction digits generalizing n with
  | nil => exact List.append_nil _
  | cons c digits ih =>
      obtain ⟨hc, hdigits⟩ := List.forall_mem_cons.mp h
      have hlt : c.toNat - '0'.toNat < 10 := (digit?_eq_some_iff.mp (digit?_ten hc)).2
      calc
        Nat.toDigits 10 n ++ c :: digits
          = Nat.toDigits 10 n ++ Nat.toDigits 10 (c.toNat - '0'.toNat) ++ digits := by
            rw [toDigits_of_isDigit hc, List.append_assoc, List.singleton_append]
        _ = Nat.toDigits 10 (10 * n + (c.toNat - '0'.toNat)) ++ digits := by
            rw [Nat.toDigits_append_toDigits (by omega) hpos hlt]
        _ = Nat.toDigits 10 (Nat.ofDigitChars 10 (c :: digits) n) := by
            rw [ih (by omega) hdigits, Nat.ofDigitChars_cons]

/-- Plain digits are those of the number that they make. -/
theorem Plain.eq_toDigits {digits : List Char} (h : Plain digits) :
    digits = Nat.toDigits 10 (Nat.ofDigitChars 10 digits 0) := by
  cases digits with
  | nil => exact absurd rfl h.ne_nil
  | cons c digits =>
      obtain ⟨hc, hdigits⟩ := List.forall_mem_cons.mp h.isDigit
      by_cases hzero : c = '0'
      · subst hzero
        rw [h.eq_of_leading_zero rfl]
        rfl
      · have hpos : 0 < c.toNat - '0'.toNat := by
          refine Nat.pos_of_ne_zero fun hvalue => hzero ?_
          have hwritten := toDigits_of_isDigit hc
          rw [hvalue] at hwritten
          exact (List.cons.inj hwritten).1.symm
        rw [Nat.ofDigitChars_cons, Nat.mul_zero, Nat.zero_add, ← toDigits_append hpos hdigits,
          toDigits_of_isDigit hc, List.singleton_append]

/-! ### Texts of an integer -/

theorem splits_of_isDigit {digits : List Char} (h : ∀ c ∈ digits, c.isDigit = true) :
    Splits digits .none digits := by
  refine .none ?_ ?_ <;>
  · intro hhead
    exact absurd (h _ (List.mem_of_head? hhead)) (by decide)

theorem splits_render (n : Int) :
    Splits (render n).toList (if n < 0 then .minus else .none) (Nat.toDigits 10 n.natAbs) := by
  rw [toList_render]
  split
  · exact .minus _
  · exact splits_of_isDigit fun c => isDigit_of_mem_toDigits

/-- What is written for an integer is read as that integer. -/
theorem parseDecimal_render (n : Int) : parseDecimal (render n) = .ok n := by
  change read 10 (render n) = .ok n
  rw [read_of_splits (by decide) (splits_render n), readBody, if_neg Nat.toDigits_ne_nil,
    accumulate_toDigits]
  simp only [Option.elim_some, Except.ok.injEq]
  split <;> simp only [Sign.apply] <;> omega

theorem canonical_render (n : Int) : Canonical (render n).toList := by
  rw [toList_render]
  split
  case isTrue hneg =>
    refine .negative (plain_toDigits _) fun hzero => ?_
    have hnatAbs : n.natAbs = 0 := toDigits_injective hzero
    omega
  case isFalse => exact .unsigned (plain_toDigits _)

/-- The canonical texts are those that are written for some integer. -/
theorem canonical_iff {text : List Char} : Canonical text ↔ ∃ n, text = (render n).toList := by
  constructor
  · intro h
    cases h with
    | unsigned hplain =>
        refine ⟨(Nat.ofDigitChars 10 text 0 : Nat), ?_⟩
        rw [toList_render, if_neg (by omega), Int.natAbs_natCast]
        exact hplain.eq_toDigits
    | @negative digits hplain hne =>
        have hvalue : Nat.ofDigitChars 10 digits 0 ≠ 0 := by
          intro hvalue
          rw [hplain.eq_toDigits, hvalue] at hne
          exact hne rfl
        refine ⟨-(Nat.ofDigitChars 10 digits 0 : Nat), ?_⟩
        rw [toList_render, if_pos (by omega), Int.natAbs_neg, Int.natAbs_natCast,
          ← hplain.eq_toDigits]
  · rintro ⟨n, rfl⟩
    exact canonical_render n

theorem head?_render (n : Int) : (render n).toList.head? = some '-' ↔ n < 0 := by
  rw [toList_render]
  split
  case isTrue hneg => exact iff_of_true rfl hneg
  case isFalse hnonneg =>
    refine iff_of_false (fun hhead => ?_) hnonneg
    exact absurd (isDigit_of_mem_toDigits (List.mem_of_head? hhead)) (by decide)

/-- Of the texts that are read as an integer, only the written one is canonical. -/
theorem canonical_iff_eq_render {text : String} {n : Int} (h : parseDecimal text = .ok n) :
    Canonical text.toList ↔ text = render n := by
  rw [canonical_iff]
  constructor
  · rintro ⟨m, hm⟩
    obtain rfl := String.toList_inj.mp hm
    rw [parseDecimal_render, Except.ok.injEq] at h
    rw [h]
  · rintro rfl
    exact ⟨n, rfl⟩

/-- Writing and reading integers are inverse, whatever library does it, as long as it keeps
the laws of both. The text of an integer is read as that integer, it is canonical, with a
minus sign just for negative integers, and no other integer has it. A text that is read as
an integer can be another one, but then it is not canonical; reading what is written for
that integer gives it again. -/
theorem render_inverse_parseDecimal {library : Integer.Library} (hreading : library.ReadingLaws)
    (hwriting : library.WritingLaws) :
    (∀ n, parseDecimal (render n library) library = .ok n) ∧
      (∀ n, Canonical (render n library).toList ∧
        ((render n library).toList.head? = some '-' ↔ n < 0) ∧
        (render n library = "0" ↔ n = 0)) ∧
      (∀ m n, render m library = render n library ↔ m = n) ∧
      ∀ text n, parseDecimal text library = .ok n →
        parseDecimal (render n library) library = .ok n ∧
          (Canonical text.toList ↔ text = render n library) := by
  have hrender : ∀ n, render n library = render n :=
    hwriting.write_eq Integer.Library.native_writingLaws
  have hparse : ∀ text, parseDecimal text library = parseDecimal text :=
    hreading.read_eq Integer.Library.native_readingLaws 10
  simp only [hrender, hparse]
  refine ⟨parseDecimal_render, fun n => ⟨canonical_render n, head?_render n, ?_⟩,
    fun m n => render_inj, fun text n h => ⟨parseDecimal_render n, ?_⟩⟩
  · exact render_inj (n := 0)
  · exact canonical_iff_eq_render h

/-- A text that is not canonical, and the canonical one of its value. -/
theorem render_inverse_parseDecimal_seven :
    Integer.Library.native.ReadingLaws ∧ Integer.Library.native.WritingLaws ∧
      parseDecimal "+0_7" = .ok 7 ∧ parseDecimal (render 7) = .ok 7 ∧
      ¬ Canonical "+0_7".toList := by
  have hreading : Integer.Library.native.ReadingLaws := Integer.Library.native_readingLaws
  have hwriting : Integer.Library.native.WritingLaws := Integer.Library.native_writingLaws
  have htext : parseDecimal "+0_7" = .ok 7 := rfl
  obtain ⟨hagain, hcanonical⟩ :=
    (render_inverse_parseDecimal hreading hwriting).2.2.2 "+0_7" 7 htext
  have hother : "+0_7" ≠ render 7 := by decide
  exact ⟨hreading, hwriting, htext, hagain, fun h => hother (hcanonical.mp h)⟩

end ConstraintExpr.Numeral
