/-!
# The library of integers

Integers of any size come from a library, which reads and writes them, counts their
bits, and raises and divides them. `Integer.Library` is what is called of it. Sums,
differences, products and the order are those of `Int`.

Nothing else is assumed of a library than what its documentation says:

* `Integer.Library.ReadingLaws`: a numeral has at most one sign, and its value grows
  with each digit at the end;
* `Integer.Library.WritingLaws`: integers are written in decimal, digit by digit;
* `Integer.Library.ArithmeticLaws`: bit lengths and powers are exact, and division
  truncates toward zero.
-/

namespace ConstraintExpr

namespace Numeral

/-- Why a text is not a numeral: nothing follows the sign, a character is neither
an underscore nor a digit below the radix, or the radix is not between 2 and 36. -/
inductive ParseError where
  | noDigits
  | invalidDigit
  | unsupportedRadix
  deriving DecidableEq, Repr, Inhabited

def ParseError.message : ParseError → String
  | .noDigits => "no digits"
  | .invalidDigit => "invalid digit"
  | .unsupportedRadix => "unsupported radix"

/-- The character stands for the digit. The letters of the alphabet go on from nine, in
either case. -/
inductive Denotes : Char → Nat → Prop
  | digit {d} : d < 10 → Denotes (.ofNat ('0'.toNat + d)) d
  | lower {d} : d < 26 → Denotes (.ofNat ('a'.toNat + d)) (d + 10)
  | upper {d} : d < 26 → Denotes (.ofNat ('A'.toNat + d)) (d + 10)

end Numeral

namespace Integer

/-- `q` is the quotient of `x` and `y` cut off toward zero, and `r` is the remainder. -/
structure Truncated (x y q r : Int) : Prop where
  identity : q * y + r = x
  bound : r.natAbs < y.natAbs
  /-- The remainder lies on the side of the dividend. -/
  sign : r = 0 ∨ r.sign = x.sign

/-- What is called of the library. -/
structure Library where
  /-- Reads a numeral in a radix. -/
  read : Nat → String → Except Numeral.ParseError Int
  /-- Writes the decimal numeral of an integer. -/
  write : Int → String
  /-- The number of bits of the magnitude. -/
  bitLength : Int → Nat
  pow : Int → Nat → Int
  /-- The quotient by a divisor other than zero. -/
  quotient : Int → Int → Int
  /-- The remainder of the division by a divisor other than zero. -/
  remainder : Int → Int → Int

namespace Library

/-- What the library reads in the body of a numeral, which is what follows the sign. A
body that has not begun counts as zero. -/
def magnitude (library : Library) (radix : Nat) (body : String) :
    Except Numeral.ParseError Int :=
  if body = "" then .ok 0 else library.read radix ("+" ++ body)

/-- How numerals are read. -/
structure ReadingLaws (library : Library) : Prop where
  /-- There are digits for the radices from 2 to 36 only, whatever the text. -/
  read_unsupported {radix text} : ¬ (2 ≤ radix ∧ radix ≤ 36) →
    library.read radix text = .error .unsupportedRadix
  /-- A plus sign says nothing that a text without a sign does not. -/
  read_unsigned {radix text} : text.toList.head? ≠ some '-' → text.toList.head? ≠ some '+' →
    library.read radix text = library.read radix ("+" ++ text)
  /-- A minus sign changes the sign of the value. -/
  read_minus {radix body} :
    library.read radix ("-" ++ body) = (library.read radix ("+" ++ body)).map Neg.neg
  /-- A sign is not a numeral. -/
  read_plus {radix} : 2 ≤ radix ∧ radix ≤ 36 → library.read radix "+" = .error .noDigits
  /-- An underscore counts for nothing. -/
  read_underscore {radix} {body : String} : 2 ≤ radix ∧ radix ≤ 36 →
    library.magnitude radix (body.push '_') = library.magnitude radix body
  /-- One more digit counts once, and what is before it as often as the radix. -/
  read_digit {radix c d} {body : String} : 2 ≤ radix ∧ radix ≤ 36 → Numeral.Denotes c d → d < radix →
    library.magnitude radix (body.push c) =
      (library.magnitude radix body).map fun value : Int => value * radix + d
  /-- Any other character spoils a numeral. -/
  read_invalid {radix c} {body : String} : 2 ≤ radix ∧ radix ≤ 36 → c ≠ '_' →
    (∀ d < radix, ¬ Numeral.Denotes c d) →
    library.magnitude radix (body.push c) = .error .invalidDigit

/-- How integers are written. -/
structure WritingLaws (library : Library) : Prop where
  write_digit {d : Nat} : d < 10 → library.write d = .singleton (.ofNat ('0'.toNat + d))
  /-- The digits of a number are those of its tenth and the last one. -/
  write_push {n d : Nat} : 0 < n → d < 10 →
    library.write (10 * n + d : Nat) = (library.write n).push (.ofNat ('0'.toNat + d))
  write_negative {n : Nat} : 0 < n → library.write (-n) = "-" ++ library.write n

/-- How integers are measured, raised and divided. -/
structure ArithmeticLaws (library : Library) : Prop where
  bitLength_zero : library.bitLength 0 = 0
  bitLength_of_ne_zero {n : Int} : n ≠ 0 → library.bitLength n = n.natAbs.log2 + 1
  pow_zero {base} : library.pow base 0 = 1
  pow_succ {base exponent} :
    library.pow base (exponent + 1) = library.pow base exponent * base
  truncated {x y} : y ≠ 0 → Truncated x y (library.quotient x y) (library.remainder x y)

/-- The library keeps what its documentation says. -/
structure Documented (library : Library) : Prop
  extends ReadingLaws library, WritingLaws library, ArithmeticLaws library

end Library

end Integer

end ConstraintExpr
