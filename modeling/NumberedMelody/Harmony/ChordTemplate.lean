/-
  NumberedMelody/Harmony/ChordTemplate.lean
  =========================================
  **Chords on a degree.**  A named chord is a list of semitones above its
  root; without a name the chord stacks every other degree of the scale.
-/
import NumberedMelody.Harmony.Degree

namespace NumberedMelody.Harmony

/-- The named chords, in semitones above the root. -/
def chordTable : List (String × List Int) :=
  [ -- triads
    ("major", [0, 4, 7]),
    ("maj", [0, 4, 7]),
    ("M", [0, 4, 7]),
    ("minor", [0, 3, 7]),
    ("min", [0, 3, 7]),
    ("m", [0, 3, 7]),
    ("diminished", [0, 3, 6]),
    ("dim", [0, 3, 6]),
    ("augmented", [0, 4, 8]),
    ("aug", [0, 4, 8]),
    ("sus2", [0, 2, 7]),
    ("sus4", [0, 5, 7]),
    -- sevenths
    ("maj7", [0, 4, 7, 11]),
    ("M7", [0, 4, 7, 11]),
    ("min7", [0, 3, 7, 10]),
    ("m7", [0, 3, 7, 10]),
    ("dom7", [0, 4, 7, 10]),
    ("7", [0, 4, 7, 10]),
    ("dim7", [0, 3, 6, 9]),
    ("hdim7", [0, 3, 6, 10]),
    ("m7b5", [0, 3, 6, 10]),
    ("aug7", [0, 4, 8, 10]),
    ("mM7", [0, 3, 7, 11]),
    -- ninths and beyond
    ("maj9", [0, 4, 7, 11, 14]),
    ("min9", [0, 3, 7, 10, 14]),
    ("dom9", [0, 4, 7, 10, 14]),
    ("9", [0, 4, 7, 10, 14]),
    ("maj11", [0, 4, 7, 11, 14, 17]),
    ("min11", [0, 3, 7, 10, 14, 17]),
    ("11", [0, 4, 7, 10, 14, 17]),
    ("maj13", [0, 4, 7, 11, 14, 17, 21]),
    ("min13", [0, 3, 7, 10, 14, 17, 21]),
    ("13", [0, 4, 7, 10, 14, 17, 21]),
    -- others
    ("6", [0, 4, 7, 9]),
    ("m6", [0, 3, 7, 9]),
    ("5", [0, 7]),
    ("power", [0, 7]) ]

/-- The chord of an unknown name. -/
def majorTriad : List Int := [0, 4, 7]

/-- The semitones of a named chord; the case of the name counts. -/
def chordIntervals (name : String) : List Int := (chordTable.lookup name).getD majorTriad

/-- The notes of a template, repeated an octave higher `octaves - 1` times. -/
def templateNotes (base : Int) (template : List Int) (octaves : Nat) : List Int :=
  (List.range (max octaves 1)).flatMap fun (octave : Nat) => template.map fun i => base + i + 12 * (octave : Int)

/-- The notes of the chord on a degree counted from one.  Over the chromatic
    scale a chord without a name is a major one. -/
def degreeChord (degree : Int) (name : Option String) (scale : Scale) (root : Int) (octaves : Nat) :
    List Int :=
  match if name.isNone && scale.isChromatic then some "major" else name with
  | some name =>
    templateNotes (Binary64.floor32 (exactNote root (degree - 1) scale 0 0)) (chordIntervals name) octaves
  | none =>
    [degree - 1, degree + 1, degree + 3].map fun d => (resolveNote root d scale 0 0).1

end NumberedMelody.Harmony
