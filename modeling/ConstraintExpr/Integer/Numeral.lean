import ConstraintExpr.Integer.Basic

/-!
# Numerals

The written form of integers. A numeral in a radix from 2 to 36 is an optional
sign followed by digits; letters of either case stand for the digits from ten
on, and underscores between or around the digits are ignored.

* `Numeral.parse` reads a numeral. A text without anything after its sign has no
  digits, and any other character than an underscore or a digit below the radix
  is invalid.
* `Numeral.render` writes the canonical decimal numeral: a minus sign for
  negative integers only, and no leading zeros.

Both leave the work to the library (`Integer.Library.ReadingLaws`,
`Integer.Library.WritingLaws`).
-/

namespace ConstraintExpr.Numeral

/-- Reads a numeral in the given radix. -/
def parse (radix : Nat) (text : String) (library : Integer.Library := .native) :
    Except ParseError Int :=
  library.read radix text

/-- Reads a decimal numeral. -/
def parseDecimal (text : String) (library : Integer.Library := .native) :
    Except ParseError Int :=
  parse 10 text library

/-- Writes the canonical decimal numeral. -/
def render (n : Int) (library : Integer.Library := .native) : String :=
  library.write n

end ConstraintExpr.Numeral
