import Mathlib.Data.List.Forall2
import Mathlib.Data.Nat.Digits.Defs
import Mathlib.Logic.Relation
import ConstraintExpr.Proofs.Library

/-!
# Reading numerals

The written form of an integer is a sign, which may be missing, and a body of digits and
underscores. What is read in it does not depend on the library that reads it, so that the
grammar is compared with the native one.

* `Numeral.Reads` is the grammar, with the reason for which a text is not a numeral. The
  value of a numeral is the positional one: each digit counts as often as the radix to
  the number of digits behind it (`Numeral.accumulate_eq_some_iff`).
* `Numeral.Respelling` is a change of a text that leaves its value alone: of the case of
  letters, a plus sign, underscores and leading zeros.
* `Numeral.parse_reads_grammar` says that reading accepts exactly the grammar and keeps
  the value under any number of such changes, with every library that keeps the laws of
  reading (`Integer.Library.ReadingLaws`).
-/

namespace ConstraintExpr.Numeral

/-! ### The grammar -/

/-- Without its underscores, the body consists of the digits of the radix, the most
significant one first. -/
def Spells (radix : Nat) (body : List Char) (digits : List Nat) : Prop :=
  List.Forall₂ (fun c d => Denotes c d ∧ d < radix) (body.filter (· ≠ '_')) digits

/-- What comes of reading the text in the radix. -/
inductive Reads (radix : Nat) (text : List Char) : Except ParseError Int → Prop
  | unsupportedRadix : ¬ (2 ≤ radix ∧ radix ≤ 36) → Reads radix text (.error .unsupportedRadix)
  | noDigits {sign} : 2 ≤ radix ∧ radix ≤ 36 → Splits text sign [] →
      Reads radix text (.error .noDigits)
  | invalidDigit {sign body c} : 2 ≤ radix ∧ radix ≤ 36 → Splits text sign body → c ∈ body →
      c ≠ '_' → (∀ d < radix, ¬ Denotes c d) → Reads radix text (.error .invalidDigit)
  | value {sign body digits} : 2 ≤ radix ∧ radix ≤ 36 → Splits text sign body → body ≠ [] →
      Spells radix body digits →
      Reads radix text (.ok (sign.apply (Nat.ofDigits radix digits.reverse)))

/-! ### Bodies -/

theorem spells_cons_iff {radix : Nat} {c : Char} {body : List Char} {digits : List Nat}
    (hc : c ≠ '_') :
    Spells radix (c :: body) digits ↔
      ∃ d rest, digit? radix c = some d ∧ Spells radix body rest ∧ digits = d :: rest := by
  rw [Spells, List.filter_cons_of_pos (by simpa using hc), List.forall₂_cons_left_iff]
  simp only [digit?_eq_some_iff]
  rfl

/-- The digits are read by Horner's rule. -/
theorem foldl_eq_ofDigits (radix value : Nat) (digits : List Nat) :
    digits.foldl (fun value d => value * radix + d) value =
      value * radix ^ digits.length + Nat.ofDigits radix digits.reverse := by
  induction digits generalizing value with
  | nil => simp
  | cons d digits ih =>
      rw [List.foldl_cons, ih, Nat.ofDigits_reverse_cons, List.length_cons, pow_succ]
      ring

theorem accumulate_eq_some_iff {radix value n : Nat} {body : List Char} :
    accumulate radix value body = some n ↔
      ∃ digits, Spells radix body digits ∧
        n = value * radix ^ digits.length + Nat.ofDigits radix digits.reverse := by
  simp only [← foldl_eq_ofDigits]
  induction body generalizing value with
  | nil => simp [accumulate, Spells, eq_comm]
  | cons c body ih =>
      by_cases hc : c = '_'
      · subst hc
        exact ih
      · rw [accumulate_cons hc, Option.bind_eq_some_iff]
        simp only [ih, spells_cons_iff hc]
        constructor
        · rintro ⟨d, hd, rest, hrest, rfl⟩
          exact ⟨d :: rest, ⟨d, rest, hd, hrest, rfl⟩, rfl⟩
        · rintro ⟨_, ⟨d, rest, hd, hrest, rfl⟩, rfl⟩
          exact ⟨d, hd, rest, hrest, rfl⟩

/-! ### Whole texts -/

theorem reads_read (radix : Nat) (text : String) : Reads radix text.toList (read radix text) := by
  by_cases hradix : 2 ≤ radix ∧ radix ≤ 36
  · obtain ⟨sign, body, hsplits⟩ := exists_splits text.toList
    rw [read_of_splits hradix hsplits, readBody]
    split
    case isTrue hbody =>
      subst hbody
      exact .noDigits hradix hsplits
    case isFalse hbody =>
      cases hvalue : accumulate radix 0 body with
      | none =>
          obtain ⟨c, hc, hline, hdigit⟩ := accumulate_eq_none_iff.mp hvalue
          exact .invalidDigit hradix hsplits hc hline hdigit
      | some n =>
          obtain ⟨digits, hdigits, rfl⟩ := accumulate_eq_some_iff.mp hvalue
          rw [Nat.zero_mul, Nat.zero_add]
          exact .value hradix hsplits hbody hdigits
  · rw [read, if_neg hradix]
    exact .unsupportedRadix hradix

/-- Nothing else comes of reading a text than what the grammar says. -/
theorem read_eq_iff_reads {radix : Nat} {text : String} {outcome : Except ParseError Int} :
    read radix text = outcome ↔ Reads radix text.toList outcome := by
  constructor
  · rintro rfl
    exact reads_read radix text
  · intro h
    cases h with
    | unsupportedRadix hradix => rw [read, if_neg hradix]
    | noDigits hradix hsplits => rw [read_of_splits hradix hsplits, readBody, if_pos rfl]
    | invalidDigit hradix hsplits hc hline hdigit =>
        have hinvalid : accumulate radix 0 _ = Option.none :=
          accumulate_eq_none_iff.mpr ⟨_, hc, hline, hdigit⟩
        rw [read_of_splits hradix hsplits, readBody, if_neg (List.ne_nil_of_mem hc), hinvalid]
        rfl
    | value hradix hsplits hbody hdigits =>
        have hvalue : accumulate radix 0 _ = some _ :=
          accumulate_eq_some_iff.mpr ⟨_, hdigits, rfl⟩
        rw [read_of_splits hradix hsplits, readBody, if_neg hbody, hvalue, Nat.zero_mul,
          Nat.zero_add]
        rfl

/-! ### Changes that keep the value -/

/-- One change of the text of a numeral. -/
inductive Respelling : List Char → List Char → Prop
  /-- Letters get another case. -/
  | letters {text other} : text.map Char.toLower = other.map Char.toLower → Respelling text other
  /-- A text without a sign gets a plus sign. -/
  | plus {text} : Splits text .none text → Respelling text ('+' :: text)
  /-- An underscore comes in anywhere behind the sign. -/
  | underscore {text other sign before after} : Splits text sign (before ++ after) →
      Splits other sign (before ++ '_' :: after) → Respelling text other
  /-- A zero comes in behind the sign, where nothing but zeros stands before it. -/
  | zero {text other sign before after} : Splits text sign (before ++ after) →
      Splits other sign (before ++ '0' :: after) → (∀ c ∈ before, c = '0' ∨ c = '_') →
      Respelling text other

theorem toLower_eq_self_or_exists (c : Char) :
    c.toLower = c ∨ ∃ d < 26, c = .ofNat ('A'.toNat + d) := by
  unfold Char.toLower
  split
  case isTrue hrange =>
    have hle : c.toNat ≤ 90 := hrange.2
    exact .inr ⟨c.toNat - 'A'.toNat, by grind, (ofNat_add_sub hrange.1).symm⟩
  case isFalse => exact .inl rfl

theorem digitValue?_toLower (c : Char) : digitValue? c.toLower = digitValue? c := by
  rcases toLower_eq_self_or_exists c with h | ⟨d, hd, rfl⟩
  · rw [h]
  · revert d
    decide

/-- Only letters have a case. -/
theorem toLower_eq_iff {c other : Char} (hother : other.isAlpha = false) :
    c.toLower = other ↔ c = other := by
  rcases toLower_eq_self_or_exists c with h | ⟨d, hd, rfl⟩
  · rw [h]
  · have hupper : (Char.ofNat ('A'.toNat + d)).isAlpha = true := by
      revert d
      decide
    have hlower : (Char.ofNat ('A'.toNat + d)).toLower.isAlpha = true := by
      revert d
      decide
    refine iff_of_false ?_ ?_
    · rintro rfl
      rw [hlower] at hother
      cases hother
    · rintro rfl
      rw [hupper] at hother
      cases hother

theorem accumulate_map_toLower (radix value : Nat) (body : List Char) :
    accumulate radix value (body.map Char.toLower) = accumulate radix value body := by
  induction body generalizing value with
  | nil => rfl
  | cons c body ih =>
      by_cases hc : c = '_'
      · subst hc
        exact ih value
      · have hlower : c.toLower ≠ '_' := mt (toLower_eq_iff rfl).mp hc
        rw [List.map_cons, accumulate_cons hlower, accumulate_cons hc, digit?, digit?,
          digitValue?_toLower]
        simp only [ih]

theorem Splits.map_toLower {text body : List Char} {sign : Sign} (h : Splits text sign body) :
    Splits (text.map Char.toLower) sign (body.map Char.toLower) := by
  have hhead : ∀ other : Char, other.isAlpha = false → text.head? ≠ some other →
      (text.map Char.toLower).head? ≠ some other := by
    intro other hother hne
    rw [List.head?_map, ne_eq, Option.map_eq_some_iff]
    rintro ⟨c, hc, hlower⟩
    rw [toLower_eq_iff hother] at hlower
    exact hne (hlower ▸ hc)
  cases h with
  | minus body => exact .minus _
  | plus body => exact .plus _
  | none hminus hplus => exact .none (hhead _ rfl hminus) (hhead _ rfl hplus)

theorem accumulate_zero_cons {radix : Nat} (hradix : 0 < radix) (body : List Char) :
    accumulate radix 0 ('0' :: body) = accumulate radix 0 body := by
  have hdenotes : Denotes '0' 0 := denotes_of_digitValue? rfl
  have hzero : digit? radix '0' = some 0 := digit?_eq_some_iff.mpr ⟨hdenotes, hradix⟩
  rw [accumulate_cons (by decide), hzero, Option.bind_some, Nat.zero_mul]

theorem accumulate_zeros {radix : Nat} (hradix : 0 < radix) {body : List Char}
    (h : ∀ c ∈ body, c = '0' ∨ c = '_') : accumulate radix 0 body = some 0 := by
  induction body with
  | nil => rfl
  | cons c body ih =>
      obtain ⟨hc, hbody⟩ := List.forall_mem_cons.mp h
      rcases hc with rfl | rfl
      · rw [accumulate_zero_cons hradix, ih hbody]
      · exact ih hbody

theorem reads_ok_iff {radix : Nat} {text : List Char} {n : Int} :
    Reads radix text (.ok n) ↔
      (2 ≤ radix ∧ radix ≤ 36) ∧ ∃ sign body v, Splits text sign body ∧ body ≠ [] ∧
        accumulate radix 0 body = some v ∧ n = sign.apply v := by
  simp only [accumulate_eq_some_iff, Nat.zero_mul, Nat.zero_add]
  constructor
  · intro h
    cases h with
    | value hradix hsplits hbody hdigits =>
        exact ⟨hradix, _, _, _, hsplits, hbody, ⟨_, hdigits, rfl⟩, rfl⟩
  · rintro ⟨hradix, sign, body, _, hsplits, hbody, ⟨digits, hdigits, rfl⟩, rfl⟩
    exact .value hradix hsplits hbody hdigits

/-- One change of the text keeps the value. -/
theorem Respelling.reads {radix : Nat} {text other : List Char} {n : Int}
    (h : Respelling text other) (hreads : Reads radix text (.ok n)) : Reads radix other (.ok n) := by
  obtain ⟨hradix, sign, body, v, hsplits, hbody, hv, rfl⟩ := reads_ok_iff.mp hreads
  have hpos : 0 < radix := by omega
  refine reads_ok_iff.mpr ⟨hradix, ?_⟩
  cases h with
  | letters hcase =>
      obtain ⟨sign', body', hsplits'⟩ := exists_splits other
      have hlower := hsplits.map_toLower
      rw [hcase] at hlower
      obtain ⟨rfl, hcase⟩ := hlower.unique hsplits'.map_toLower
      refine ⟨sign, body', v, hsplits', ?_, ?_, rfl⟩
      · rintro rfl
        exact hbody (List.map_eq_nil_iff.mp hcase)
      · rw [← accumulate_map_toLower, ← hcase, accumulate_map_toLower, hv]
  | plus hnone =>
      obtain ⟨rfl, rfl⟩ := hsplits.unique hnone
      exact ⟨.plus, _, v, .plus _, hbody, hv, rfl⟩
  | underscore hbefore hafter =>
      obtain ⟨rfl, rfl⟩ := hsplits.unique hbefore
      refine ⟨sign, _, v, hafter, by simp, ?_, rfl⟩
      rw [accumulate_append] at hv ⊢
      exact hv
  | zero hbefore hafter hzeros =>
      obtain ⟨rfl, rfl⟩ := hsplits.unique hbefore
      refine ⟨sign, _, v, hafter, by simp, ?_, rfl⟩
      rw [accumulate_append, accumulate_zeros hpos hzeros, Option.bind_some] at hv ⊢
      rw [accumulate_zero_cons hpos, hv]

/-- Any number of changes of the text keeps the value. -/
theorem reads_of_respellings {radix : Nat} {text other : List Char} {n : Int}
    (h : Relation.ReflTransGen Respelling text other) (hreads : Reads radix text (.ok n)) :
    Reads radix other (.ok n) := by
  induction h with
  | refl => exact hreads
  | tail _ hlast ih => exact hlast.reads ih

/-- Whatever library reads a text in a radix, it gives what the grammar says, and nothing
else, as long as it keeps the laws of reading. A numeral keeps its value when letters
change their case, when it gets a plus sign, and when underscores or leading zeros come in
behind the sign. -/
theorem parse_reads_grammar {library : Integer.Library} (h : library.ReadingLaws) (radix : Nat)
    (text : String) :
    (∀ outcome, parse radix text library = outcome ↔ Reads radix text.toList outcome) ∧
      ∀ (other : String) (n : Int),
        Relation.ReflTransGen Respelling text.toList other.toList →
          parse radix text library = .ok n → parse radix other library = .ok n := by
  have hparse : ∀ text, parse radix text library = read radix text :=
    h.read_eq Integer.Library.native_readingLaws radix
  refine ⟨fun outcome => ?_, fun other n hother htext => ?_⟩
  · rw [hparse, read_eq_iff_reads]
  · rw [hparse, read_eq_iff_reads] at htext ⊢
    exact reads_of_respellings hother htext

/-- All four changes, one after another. -/
theorem parse_reads_grammar_hexadecimal :
    Integer.Library.native.ReadingLaws ∧
      Relation.ReflTransGen Respelling "fF".toList "+0_Ff".toList ∧
      parse 16 "fF" = .ok 255 ∧ parse 16 "+0_Ff" = .ok 255 := by
  have hlaws : Integer.Library.native.ReadingLaws := Integer.Library.native_readingLaws
  have hplus : Respelling ['f', 'F'] ['+', 'f', 'F'] := .plus (.none (by decide) (by decide))
  have hunderscore : Respelling ['+', 'f', 'F'] ['+', '_', 'f', 'F'] :=
    .underscore (.plus ([] ++ ['f', 'F'])) (.plus _)
  have hzero : Respelling ['+', '_', 'f', 'F'] ['+', '0', '_', 'f', 'F'] :=
    .zero (.plus ([] ++ ['_', 'f', 'F'])) (.plus _) (List.forall_mem_nil _)
  have hletters : Respelling ['+', '0', '_', 'f', 'F'] ['+', '0', '_', 'F', 'f'] :=
    .letters (by decide)
  have hchanges : Relation.ReflTransGen Respelling "fF".toList "+0_Ff".toList :=
    .tail (.tail (.tail (.single hplus) hunderscore) hzero) hletters
  have hvalue : parse 16 "fF" = .ok 255 := rfl
  exact ⟨hlaws, hchanges, hvalue,
    (parse_reads_grammar hlaws 16 "fF").2 "+0_Ff" 255 hchanges hvalue⟩

end ConstraintExpr.Numeral
