/-
  NumberedMelody/Harmony/Fifths.lean
  ==================================
  **The circle of fifths.**  Keys are placed on the line of fifths from five
  flats (D flat) to six sharps (F sharp); a note is spelled, in a key, as the
  one of its tonal pitch classes that lies in the twelve-wide window around
  the key.
-/
import NumberedMelody.Harmony.Key

namespace NumberedMelody.Harmony

/-- Fifths from C to the pitch class of a note, between five down and six up. -/
def fifthsOfNote (note : Int) : Int :=
  let fifths := 7 * (note % 12) % 12
  if 6 < fifths then fifths - 12 else fifths

/-- Fifths from C to a named key; the octave of the name does not count, and a
    text that starts with no note letter counts as C. -/
def fifthsOfName (name : String) : Int :=
  match Text.trim name.toList with
  | [] => 0
  | letter :: rest =>
    match naturalSemitones letter.toUpper with
    | none => 0
    | some semitones => fifthsOfNote (semitones + (rest.head?.bind accidental).getD 0)

def fifthsOfKey : Key → Int
  | .name text => fifthsOfName text
  | .midi note => fifthsOfNote note

/-- A number as 32 bits with a sign hold it: past either end it goes on from the
    other one. -/
def wrap32 (n : Int) : Int := n.bmod 4294967296

/-- The tonal pitch class of a note in a key: C is 14 and each fifth up is one more.
    It is reckoned in 32 bits, and so means the note only if seven times the note
    stays within them. -/
def tonalPitchClass (note : Int) (key : Key) : Int :=
  let lowest := 11 + fifthsOfKey key
  wrap32 (note * 7 + 26 - lowest) % 12 + lowest

end NumberedMelody.Harmony
