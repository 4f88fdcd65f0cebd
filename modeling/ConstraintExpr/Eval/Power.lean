import ConstraintExpr.Eval.Error

/-!
# Powers of bounded width

Raising an integer to a power can need far more memory than its operands. The
power is refused when the width of the base times the exponent exceeds
`maxPowerBits`, which no power that passes can exceed. Zero, one and minus one
stay small whatever the exponent, and are never refused for its size.
-/

namespace ConstraintExpr.Eval

/-- The widest power allowed, in bits: two to the twenty-fourth. -/
def maxPowerBits : Nat := 16777216

/-- The product of two widths, held down to the largest unsigned word of 64
bits. -/
def boundedProduct (a b : Nat) : Nat :=
  min (a * b) 18446744073709551615

/-- `base` raised to the power `exponent`. -/
def power (base exponent : Int) : Except EvalError Int :=
  if exponent < 0 then
    .error .negativeExponent
  else if exponent = 0 then
    .ok 1
  else if Integer.bitLength (Integer.abs base) ≤ 1 then
    -- only the parity of the exponent matters to 0, 1 and -1
    match Integer.remainder exponent 2 with
    | .error fault => .error (.integer fault)
    | .ok parity => .ok (if base < 0 ∧ parity = 0 then 1 else base)
  else
    -- a product of widths over the limit refuses before anything is multiplied
    match Integer.toUnsigned32? exponent with
    | none => .error (.exponentTooLarge exponent)
    | some small =>
        if maxPowerBits < boundedProduct (Integer.bitLength (Integer.abs base)) small then
          .error (.exponentTooLarge exponent)
        else
          .ok (Integer.pow base small)

end ConstraintExpr.Eval
