import ConstraintExpr.Integer.Library

/-!
# The native library of integers

The library that runs: integers are read digit by digit from the most significant one
on (`Numeral.read`), written by `Nat.repr`, and divided and raised by `Int` itself
(`Integer.Library.native`).
-/

namespace ConstraintExpr

namespace Numeral

/-- The value of an ASCII digit or letter; letters of either case go from ten
to thirty-five. -/
def digitValue? (c : Char) : Option Nat :=
  if '0' ≤ c ∧ c ≤ '9' then some (c.toNat - '0'.toNat)
  else if 'a' ≤ c ∧ c ≤ 'z' then some (c.toNat - 'a'.toNat + 10)
  else if 'A' ≤ c ∧ c ≤ 'Z' then some (c.toNat - 'A'.toNat + 10)
  else none

/-- The value of a digit that the radix admits. -/
def digit? (radix : Nat) (c : Char) : Option Nat :=
  (digitValue? c).filter fun value => value < radix

/-- Whether the text starts with a minus sign, and what follows its sign. -/
def splitSign : List Char → Bool × List Char
  | '-' :: digits => (true, digits)
  | '+' :: digits => (false, digits)
  | digits => (false, digits)

/-- Reads digits from the most significant one on, starting from `value` and
passing over underscores. -/
def accumulate (radix : Nat) (value : Nat) : List Char → Option Nat
  | [] => some value
  | '_' :: digits => accumulate radix value digits
  | c :: digits =>
      match digit? radix c with
      | some d => accumulate radix (value * radix + d) digits
      | none => none

/-- Reads a numeral in the given radix. The radix is checked before the text. -/
def read (radix : Nat) (text : String) : Except ParseError Int :=
  if 2 ≤ radix ∧ radix ≤ 36 then
    match splitSign text.toList with
    | (_, []) => .error .noDigits
    | (negative, digits) =>
        match accumulate radix 0 digits with
        | some value => .ok (if negative then -(value : Int) else value)
        | none => .error .invalidDigit
  else
    .error .unsupportedRadix

/-- Writes a decimal numeral. -/
def write (n : Int) : String :=
  if n < 0 then "-" ++ n.natAbs.repr else n.natAbs.repr

end Numeral

/-- The library made of these and of the operations of `Int`. -/
def Integer.Library.native : Library where
  read := Numeral.read
  write := Numeral.write
  bitLength n := if n = 0 then 0 else n.natAbs.log2 + 1
  pow := Int.pow
  quotient := Int.tdiv
  remainder := Int.tmod

end ConstraintExpr
