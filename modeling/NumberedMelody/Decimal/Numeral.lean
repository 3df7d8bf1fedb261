/-
  NumberedMelody/Decimal/Numeral.lean
  ===================================
  **Reading decimals.**  A numeral is split into its digit runs once; which of
  the runs a format requires, and which signs it allows, is decided by the
  reader of that format.  `toFloat` is the double nearest to the decimal.
-/

namespace NumberedMelody.Decimal

/-- The value of a run of decimal digits. -/
def digitsValue (digits : List Char) : Nat :=
  digits.foldl (fun n c => n * 10 + (c.toNat - '0'.toNat)) 0

/-- The double nearest to `coefficient · 10 ^ exponent`.  Beyond `10 ^ 400`
    every number is infinite and below `10 ^ -400` every number is zero. -/
def nearest (coefficient : Nat) (exponent : Int) : Float :=
  let leading : Int := (Nat.repr coefficient).length + exponent
  if coefficient = 0 then 0.0
  else if leading < -400 then 0.0
  else if 400 < leading then 1.0 / 0.0
  else if 0 ≤ exponent then Float.ofScientific coefficient false exponent.toNat
  else Float.ofScientific coefficient true (-exponent).toNat

/-- The runs of a numeral: digits, digits after a point, and a signed exponent.
    A run may be empty; an absent point or exponent is `none`. -/
structure Numeral where
  whole : List Char
  fraction : Option (List Char)
  exponent : Option (Bool × List Char)
  deriving Repr

/-- Split off a leading run of digits. -/
def digitRun (text : List Char) : List Char × List Char :=
  (text.takeWhile Char.isDigit, text.dropWhile Char.isDigit)

/-- A sign, if there is one, and whether it is a minus. -/
def sign (text : List Char) : Bool × List Char :=
  match text with
  | '-' :: rest => (true, rest)
  | '+' :: rest => (false, rest)
  | _ => (false, text)

namespace Numeral

/-- The longest unsigned numeral at the start of a text, and the rest. -/
def scan (text : List Char) : Numeral × List Char :=
  let (whole, rest) := digitRun text
  let (fraction, rest) := match rest with
    | '.' :: after => let (digits, rest) := digitRun after; (some digits, rest)
    | _ => (none, rest)
  let scanExponent (after : List Char) : Option (Bool × List Char) × List Char :=
    let (negative, after) := sign after
    let (digits, rest) := digitRun after
    (some (negative, digits), rest)
  let (exponent, rest) := match rest with
    | 'e' :: after => scanExponent after
    | 'E' :: after => scanExponent after
    | _ => (none, rest)
  (⟨whole, fraction, exponent⟩, rest)

/-- Neither a point nor an exponent. -/
def isInteger (n : Numeral) : Bool := n.fraction.isNone && n.exponent.isNone

/-- Every point and exponent mark is followed by digits. -/
def isComplete (n : Numeral) : Bool :=
  n.fraction != some [] && (n.exponent.map (fun e => e.2.isEmpty)) != some true

/-- The first digit of several in front of the point is a zero. -/
def hasLeadingZero (n : Numeral) : Bool := n.whole.head? == some '0' && n.whole.length > 1

/-- Complete, and with a whole part that is written the shortest way. -/
def isPlain (n : Numeral) : Bool := !n.whole.isEmpty && !n.hasLeadingZero && n.isComplete

/-- The exponent; without one, zero. -/
def exponentValue (n : Numeral) : Int :=
  match n.exponent with
  | none => 0
  | some (negative, digits) => if negative then -(digitsValue digits : Int) else digitsValue digits

def toFloat (n : Numeral) : Float :=
  let fraction := n.fraction.getD []
  nearest (digitsValue (n.whole ++ fraction)) (n.exponentValue - fraction.length)

end Numeral

/-- An optionally signed integer that fits between two bounds. -/
def readInteger? (low high : Int) (text : List Char) : Option Int :=
  let (negative, digits) := sign text
  if digits.isEmpty || !digits.all Char.isDigit then none
  else
    let value : Int := if negative then -(digitsValue digits : Int) else digitsValue digits
    if low ≤ value ∧ value ≤ high then some value else none

/-- A 32-bit signed integer, with an optional sign. -/
def readInt32? (text : List Char) : Option Int := readInteger? (-2147483648) 2147483647 text

/-- A 64-bit unsigned integer; a plus may stand in front of it, a minus may not. -/
def readNat64? (text : List Char) : Option Nat :=
  match text with
  | '-' :: _ => none
  | _ => (readInteger? 0 18446744073709551615 text).map Int.toNat

/-- A floating-point number as an argument: an optional sign, then digits with
    an optional point and exponent, or one of the words for the special values
    in any case. -/
def readFloat? (text : List Char) : Option Float :=
  let (negative, unsigned) := sign text
  let word := String.ofList (unsigned.map Char.toLower)
  let magnitude : Option Float :=
    if word == "inf" || word == "infinity" then some (1.0 / 0.0)
    else if word == "nan" then some (0.0 / 0.0)
    else
      let (numeral, rest) := Numeral.scan unsigned
      let hasDigits := !numeral.whole.isEmpty || !(numeral.fraction.getD []).isEmpty
      let exponentRead := (numeral.exponent.map (fun e => e.2.isEmpty)) != some true
      if rest.isEmpty && hasDigits && exponentRead then some numeral.toFloat else none
  magnitude.map (fun x => if negative then -x else x)

end NumberedMelody.Decimal
