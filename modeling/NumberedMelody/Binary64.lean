/-
  NumberedMelody/Binary64.lean
  ============================
  **A double as an integer times a power of two.**  Notes are floored to
  semitones and bends rounded to steps, so whole parts of doubles are taken
  exactly, on the significand and exponent, and then brought into 32 bits.
-/

namespace NumberedMelody.Binary64

/-- What the bits of a double stand for; a finite one is
    `± significand · 2 ^ exponent`. -/
inductive Value where
  | nan
  | infinite (negative : Bool)
  | finite (negative : Bool) (significand : Nat) (exponent : Int)
  deriving Repr, DecidableEq

/-- Decode sign, exponent field and fraction. -/
def value (x : Float) : Value :=
  let bits := x.toBits.toNat
  let negative := decide (Nat.pow 2 63 ≤ bits)
  let field : Nat := bits / Nat.pow 2 52 % 2048
  let fraction := bits % Nat.pow 2 52
  if field = 2047 then
    if fraction = 0 then .infinite negative else .nan
  else if field = 0 then .finite negative fraction (-1074)
  else .finite negative (fraction + Nat.pow 2 52) (field - 1075)

def isNegative (x : Float) : Bool := decide (Nat.pow 2 63 ≤ x.toBits.toNat)

/-- Bring an integer into the range of 32-bit signed integers. -/
def clamp32 (z : Int) : Int := max (-2147483648) (min z 2147483647)

/-- `± significand · 2 ^ exponent` rounded down. -/
def floorOf (negative : Bool) (significand : Nat) (exponent : Int) : Int :=
  let signed : Int := if negative then -significand else significand
  if 0 ≤ exponent then signed * (Nat.pow 2 exponent.toNat : Nat) else signed / (Nat.pow 2 (-exponent).toNat : Nat)

/-- `± significand · 2 ^ exponent` rounded to nearest, halves away from zero. -/
def roundOf (negative : Bool) (significand : Nat) (exponent : Int) : Int :=
  let unit := Nat.pow 2 (-exponent).toNat
  let magnitude : Nat :=
    if 0 ≤ exponent then significand * Nat.pow 2 exponent.toNat else (2 * significand + unit) / (2 * unit)
  if negative then -magnitude else magnitude

/-- A whole part brought into 32 bits: what is not a number counts as 0, what
    lies outside as the nearest end. -/
def wholePart (whole : Bool → Nat → Int → Int) (x : Float) : Int :=
  match value x with
  | .nan => 0
  | .infinite negative => if negative then -2147483648 else 2147483647
  | .finite negative significand exponent => clamp32 (whole negative significand exponent)

def floor32 (x : Float) : Int := wholePart floorOf x

/-- The nearest integer, halves away from zero, as a 32-bit integer. -/
def round32 (x : Float) : Int := wholePart roundOf x

/-- The floor as a double; a double that is whole already keeps its sign of zero. -/
def floor (x : Float) : Float :=
  match value x with
  | .finite negative significand exponent =>
    if 0 ≤ exponent then x
    else if significand % Nat.pow 2 (-exponent).toNat = 0 then x
    else Float.ofInt (floorOf negative significand exponent)
  | _ => x

end NumberedMelody.Binary64
