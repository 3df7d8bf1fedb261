/-
  NumberedMelody/Decimal/Layout.lean
  ==================================
  **How numbers are written.**  Three layouts of the same digits: positional
  without an exponent (listings and messages), ten significant digits with an
  exponent (frequencies), and the layout of event documents, positional for
  ordinary magnitudes and with an exponent beyond them.
-/
import NumberedMelody.Binary64
import NumberedMelody.Decimal.Shortest

namespace NumberedMelody.Decimal

open Binary64 (Value)

def zeros (n : Nat) : String := String.ofList (List.replicate n '0')

/-- A number with its sign in front. -/
def signed (negative : Bool) (text : String) : String :=
  if negative then "-" ++ text else text

/-- The digits of a coefficient with the point before the last `places` of them. -/
def withPoint (digits : List Char) (places : Nat) : String :=
  let whole := digits.take (digits.length - places)
  String.ofList whole ++ "." ++ String.ofList (digits.drop (digits.length - places))

/-- Positional layout: no exponent, and no point in a whole number. -/
def positional (d : Digits) : String :=
  let digits := (Nat.repr d.coefficient).toList
  let places := (-d.exponent).toNat
  if 0 ≤ d.exponent then String.ofList digits ++ zeros d.exponent.toNat
  else if places < digits.length then withPoint digits places
  else "0." ++ zeros (places - digits.length) ++ String.ofList digits

/-- One digit before the point and an exponent, with a plus in front of it if
    that is asked for; no point after a lone digit. -/
def exponential (plus : Bool) (d : Digits) : String :=
  let digits := (Nat.repr d.coefficient).toList
  let exponent := d.exponent + digits.length - 1
  let mantissa := if digits.length ≤ 1 then String.ofList digits else withPoint digits (digits.length - 1)
  mantissa ++ (if plus && 0 ≤ exponent then "e+" else "e") ++ toString exponent

/-- The plain text of a double: the fewest digits that read back, never an
    exponent; of two equally near decimals the greater. -/
def plain (x : Float) : String :=
  match Binary64.value x with
  | .nan => "NaN"
  | .infinite negative => signed negative "inf"
  | .finite negative m q => signed negative (positional (shortest .up m q))

/-- Ten significant digits and an exponent. -/
def scientific (x : Float) : String :=
  match Binary64.value x with
  | .nan => "NaN"
  | .infinite negative => signed negative "inf"
  | .finite negative m q =>
    let d := significant 10 m q
    if m = 0 then signed negative ("0." ++ zeros 9 ++ "e0") else signed negative (exponential false d)

/-- The layout of a non-zero number in an event document: up to sixteen places
    before the point and up to four zeros after it, else a signed exponent. -/
def documentLayout (d : Digits) : String :=
  let digits := (Nat.repr d.coefficient).toList
  let point : Int := digits.length + d.exponent
  if 0 ≤ d.exponent ∧ point ≤ 16 then positional d ++ ".0"
  else if d.exponent < 0 ∧ -5 < point ∧ point ≤ 16 then positional d
  else exponential true d

/-- A double in an event document; only finite numbers have a text there. -/
def document? (x : Float) : Option String :=
  match Binary64.value x with
  | .finite negative m q =>
    if m = 0 then some (signed negative "0.0")
    else some (signed negative (documentLayout (shortest .toEven m q)))
  | _ => none

end NumberedMelody.Decimal
