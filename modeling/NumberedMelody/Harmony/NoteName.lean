/-
  NumberedMelody/Harmony/NoteName.lean
  ====================================
  **Note names.**  A name is a letter, an optional accidental and an optional
  octave of one digit: `C4`, `Bb3`, `f#`, `D-1`.
-/
import NumberedMelody.Text.Blank

namespace NumberedMelody.Harmony

/-- Semitones of a natural note above C. -/
def naturalSemitones (letter : Char) : Option Int :=
  match letter with
  | 'C' => some 0
  | 'D' => some 2
  | 'E' => some 4
  | 'F' => some 5
  | 'G' => some 7
  | 'A' => some 9
  | 'B' => some 11
  | _ => none

def accidental (mark : Char) : Option Int :=
  match mark with
  | '#' => some 1
  | 's' => some 1
  | 'b' => some (-1)
  | _ => none

/-- The octave of names that give none. -/
def middleOctave : Int := 4

/-- The note that a text which is no note name stands for: middle C. -/
def middleC : Int := 60

/-- The octave of a name: nothing, or one digit with an optional minus. -/
def octaveOf (text : List Char) : Option Int :=
  match text with
  | [] => some middleOctave
  | [d] => if d.isDigit then some (d.toNat - '0'.toNat : Nat) else none
  | ['-', d] => if d.isDigit then some (-(d.toNat - '0'.toNat : Nat)) else none
  | _ => none

/-- Letter, accidental and octave of a note name. -/
def noteName? (name : List Char) : Option (Int × Int × Int) :=
  match name with
  | [] => none
  | letter :: rest => do
    let semitones ← naturalSemitones letter.toUpper
    match rest with
    | mark :: after =>
      match accidental mark with
      | some shift => return (semitones, shift, ← octaveOf after)
      | none => return (semitones, 0, ← octaveOf rest)
    | [] => return (semitones, 0, middleOctave)

/-- The MIDI note of a name; octave -1 starts at note 0. -/
def midiOfName (name : String) : Int :=
  match noteName? (Text.trim name.toList) with
  | some (semitones, shift, octave) => 12 + 12 * octave + semitones + shift
  | none => middleC

end NumberedMelody.Harmony
