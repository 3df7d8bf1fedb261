/-
  NumberedMelody/Grammar/Lexeme.lean
  ==================================
  **Small parts of the notation:** numbers, duration marks, octave marks,
  accidentals, degrees, and the marks that stand in front of an item.
-/
import NumberedMelody.Decimal.Numeral
import NumberedMelody.Event
import NumberedMelody.Grammar.Reader
import NumberedMelody.Harmony.NoteName
import NumberedMelody.Tree.Node

namespace NumberedMelody.Grammar

open Reader

/-! ### Numbers -/

/-- A 32-bit integer with an optional minus. -/
def integer : Reader Int :=
  mapSome Decimal.readInt32? do
    let minus ← optional (char '-')
    let run ← digits
    return minus.toList ++ run

/-- A 64-bit natural number. -/
def natural : Reader Nat := mapSome Decimal.readNat64? digits

/-- Digits, a point and digits. -/
def decimal : Reader Float := do
  let whole ← digits
  let _ ← char '.'
  let places ← digits
  return Decimal.nearest (Decimal.digitsValue (whole ++ places)) (-(places.length : Int))

/-! ### Marks in front of an item -/

def totalShift (shifts : List Int) : Int := shifts.foldl (· + ·) 0

/-- Carets and underscores: octaves up and down. -/
def octaveMarks : Reader Int := do
  let marks ← many1 (oneOf "^_")
  return totalShift (marks.map fun c => if c = '^' then 1 else -1)

def escapedOctave : Reader Int := between '<' '>' integer

def escapedDecimal : Reader Float := between '<' '>' decimal

def durationMark : Reader Float :=
  mapSome (fun (mark, dots) => Rhythm.dottedValue mark dots) do
    let mark ← satisfy Rhythm.isMark
    let dots ← many (char '.')
    return (mark, dots.length)

def durationMarks : Reader Float := Quantity.sum <$> many1 durationMark

/-- A duration in front of an item. -/
def durationAhead : Reader Float := firstOf [escapedDecimal, durationMarks]

def accidentals : Reader Int := do
  let marks ← many1 (oneOf "#b")
  return totalShift (marks.filterMap Harmony.accidental)

/-- A mark in front of an item. -/
inductive Mark where
  | octave (shift : Int)
  | octaveChange (value : Int)
  | accidental (shift : Int)
  | duration (value : Float)

def mark : Reader Mark :=
  firstOf
    [Mark.octave <$> octaveMarks, Mark.duration <$> escapedDecimal, Mark.octaveChange <$> escapedOctave,
      Mark.accidental <$> accidentals, Mark.duration <$> durationMarks]

/-- Overrides with one mark more: octaves, accidentals and durations add up,
    and the last octave change counts. -/
def Mark.addTo (o : Overrides) : Mark → Overrides
  | .octave shift => { o with octave := some (o.octave.getD 0 + shift) }
  | .octaveChange value => { o with octaveChange := some value }
  | .accidental shift => { o with modifier := some (o.modifier.getD 0 + shift) }
  | .duration value => { o with duration := some (o.duration.getD 0.0 + value) }

/-- The marks in front of an item, as overrides. -/
def marks : Reader Overrides := (fun all => all.foldl Mark.addTo {}) <$> many mark

/-! ### Degrees -/

/-- A degree of one digit, with an optional minus, or `T` for ten and `E` for eleven. -/
def degree : Reader Int :=
  firstOf
    [mapSome Decimal.readInt32? do
        let minus ← optional (char '-')
        let digit ← satisfy Char.isDigit
        return minus.toList ++ [digit],
      (fun _ => 10) <$> char 'T',
      (fun _ => 11) <$> char 'E']

def tone : Reader Pitch := do
  let (text, overrides, degree) ← consumed do
    let overrides ← marks
    let degree ← degree
    return (overrides, degree)
  return { text, overrides, degree }

def inversion : Reader Int := do
  let _ ← char '%'
  integer

/-! ### Names and boundaries -/

/-- The name of a variable: a capital that is no degree. -/
def variableName : Reader Char := satisfy fun c => c.isUpper && c != 'T' && c != 'E'

/-- What a control item stands before: a separator, a closing sign or the end. -/
def boundary : Reader Unit :=
  peek (firstOf [(fun _ => ()) <$> separators, atEnd, (fun _ => ()) <$> oneOf ")]>|:"])

end NumberedMelody.Grammar
