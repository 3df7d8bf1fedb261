/-
  NumberedMelody/Harmony/Spelling.lean
  ====================================
  **Spelling notes as degrees.**  A MIDI note is written back as a degree of
  the major scale on C, with a sharp or a flat as the key asks and with octave
  marks counted from note 60.
-/
import NumberedMelody.Harmony.Fifths
import NumberedMelody.Harmony.Scale

namespace NumberedMelody.Harmony

/-- A note written as a degree. -/
structure Spelled where
  text : String
  degree : Int
  octave : Int
  modifier : Int
  deriving Repr, DecidableEq

/-- Semitones of the degrees of the major scale. -/
def majorDegrees : List Int := [0, 2, 4, 5, 7, 9, 11]

/-- The degree of the major scale that a chromatic step is, if it is one. -/
def naturalDegree? (chromatic : Int) : Option Nat := majorDegrees.idxOf? chromatic

/-- Degree and accidental of a chromatic step; a step between two degrees is
    the lower one sharpened or the upper one flattened. -/
def spellStep (chromatic : Int) (flat : Bool) : Int × Int :=
  match naturalDegree? chromatic with
  | some degree => (degree, 0)
  | none =>
    if flat then (((naturalDegree? (chromatic + 1)).getD 0 : Nat), -1)
    else (((naturalDegree? (chromatic - 1)).getD 0 : Nat), 1)

/-- The marks of an octave shift: carets up, underscores down. -/
def octaveMarks (octave : Int) : String :=
  if 0 < octave then String.ofList (List.replicate octave.toNat '^')
  else String.ofList (List.replicate (-octave).toNat '_')

def accidentalMark (modifier : Int) : String :=
  if modifier = 1 then "#" else if modifier = -1 then "b" else ""

/-- Spell a MIDI note.  A chromatic scale numbers the twelve steps; any other
    scale is spelled flat where the tonal pitch class is a flat one. -/
def spell (note : Int) (key : Key) (scale : Scale) : Spelled :=
  let chromatic := note % 12
  let octave := note / 12 - 5
  let fifths := tonalPitchClass note key
  let (degree, modifier) :=
    if scale.isChromatic then (chromatic, 0)
    else spellStep chromatic (6 ≤ fifths && fifths ≤ 12)
  ⟨octaveMarks octave ++ accidentalMark modifier ++ toString degree, degree, octave, modifier⟩

end NumberedMelody.Harmony
