/-
  NumberedMelody/Harmony/Degree.lean
  ==================================
  **From degrees to notes.**  A degree lies as many steps of the scale above
  the tonic as it counts; degrees past either end fold into the octave.  Over
  fractional steps the note is floored and the rest becomes a pitch bend.
-/
import NumberedMelody.Binary64
import NumberedMelody.Harmony.Scale

namespace NumberedMelody.Harmony

/-- The note of a degree over a list of steps, not yet floored. -/
def noteOnSteps {α : Type} [Quantity α] (steps : List α) (root degree octave modifier : Int) : α :=
  let size : Int := steps.length
  let folded := octave + degree / size
  let within := Quantity.sum (steps.take (degree % size).toNat)
  Quantity.ofInt root + within + Quantity.ofInt folded * Quantity.sum steps + Quantity.ofInt modifier

/-- The note of a degree of a scale, not yet floored. -/
def exactNote (root degree : Int) (scale : Scale) (octave modifier : Int) : Float :=
  noteOnSteps scale.intervals root degree octave modifier

/-- How many times higher a tone sounds so many octaves up: twice per octave,
    and as high as it was without a move in either direction. -/
def raise (octaves : Float) : Float := if octaves == 0.0 then 1.0 else Float.pow 2.0 octaves

/-- The frequency of a note in hertz: 440 at note 69, doubling every twelve notes. -/
def frequency (note : Float) : Float := 440.0 * raise ((note - 69.0) / 12.0)

/-- The resting position of a 14-bit pitch bend. -/
def bendCentre : Float := 8192.0

/-- Semitones that a full bend in either direction covers. -/
def bendSemitones : Float := 1.0

/-- The pitch bend that lifts the floored note up to the note; none for whole notes. -/
def pitchBend (note : Float) : Option Nat :=
  let base := Binary64.floor note
  if (note - base).abs < 1e-9 then none
  else
    let cents := 1200.0 * Float.log2 (frequency note / frequency base)
    let offset := cents / (100.0 * bendSemitones) * (bendCentre - 1.0)
    some (max 0 (min (Binary64.round32 (bendCentre + offset)) 16383)).toNat

/-- The MIDI note and pitch bend of a degree. -/
def resolveNote (root degree : Int) (scale : Scale) (octave modifier : Int) : Int × Option Nat :=
  let note := exactNote root degree scale octave modifier
  (Binary64.floor32 note, pitchBend note)

end NumberedMelody.Harmony
