/-
  NumberedMelody/Harmony/Key.lean
  ===============================
  **Keys.**  The tonic that degrees are counted from, as a note name or as a
  MIDI note.
-/
import NumberedMelody.Harmony.NoteName

namespace NumberedMelody

/-- The tonic of the scale. -/
inductive Key where
  | midi (note : Int)
  | name (text : String)
  deriving Repr, DecidableEq, Inhabited

/-- The MIDI note of the tonic. -/
def Key.toMidi : Key → Int
  | .midi note => note
  | .name text => Harmony.midiOfName text

end NumberedMelody
