/-
  NumberedMelody/Decimal/Scaled.lean
  ==================================
  **Decimals scaled in doubles.**  A numeral is cut down to a coefficient of
  64 bits and a power of ten, and the two are multiplied or divided as
  doubles.  The result can lie a unit or two beside the nearest double, but
  long numerals cost no more than short ones; documents in JSON are read this
  way.
-/
import NumberedMelody.Decimal.Numeral

namespace NumberedMelody.Decimal

/-- Coefficients stay below this. -/
def coefficientLimit : Nat := 18446744073709551616

/-- Take digits into a coefficient until one does not fit any more, and hand
    back the digits from there on. -/
def takeDigits (coefficient : Nat) : List Char → Nat × List Char
  | [] => (coefficient, [])
  | c :: more =>
    let longer := coefficient * 10 + (c.toNat - '0'.toNat)
    if longer < coefficientLimit then takeDigits longer more else (coefficient, c :: more)

/-- The largest power of ten that a double holds. -/
def largestPower : Nat := 308

/-- Scale by a power of ten; a result beyond the largest double is none.  A
    power too small to divide by at once is divided by in parts. -/
def scaledBy (x : Float) (exponent : Int) : Option Float :=
  if exponent.natAbs ≤ largestPower then
    let power := nearest 1 exponent.natAbs
    if exponent < 0 then some (x / power)
    else if (x * power).isInf then none
    else some (x * power)
  else if x == 0.0 then some x
  else if 0 ≤ exponent then none
  else scaledBy (x / nearest 1 largestPower) (exponent + largestPower)
termination_by exponent.natAbs
decreasing_by simp only [largestPower] at *; omega

/-- The value of a numeral by scaling.  Digits in front of the point that do
    not fit into the coefficient count as powers of ten; behind the point
    digits are taken again as long as they fit. -/
def Numeral.scaled? (n : Numeral) : Option Float :=
  let (leading, beyond) := takeDigits 0 n.whole
  let fraction := n.fraction.getD []
  let (coefficient, dropped) := takeDigits leading fraction
  scaledBy (nearest coefficient 0) (n.exponentValue + beyond.length - (fraction.length - dropped.length : Nat))

end NumberedMelody.Decimal
