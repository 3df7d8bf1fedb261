/-
  NumberedMelody/Event/Chord.lean
  ===============================
  **Chords.**  Tones that sound together.  A resolved chord keeps its tones
  sorted by note, tones of one note in the order in which they came; an
  inversion raises the lowest tones, or lowers the highest, by an octave each.
-/
import NumberedMelody.Event.Pitch

namespace NumberedMelody

/-- Simultaneous pitches. -/
structure Chord (τ : Type := Float) where
  text : String
  overrides : Overrides := {}
  tones : List (Pitch τ)
  inversions : Option Int := none
  duration : Option τ := none
  deriving Repr, BEq, Inhabited

/-! ### Sorting by note -/

/-- An absent note counts below every note. -/
def noteAtMost : Option Int → Option Int → Bool
  | none, _ => true
  | some _, none => false
  | some a, some b => a ≤ b

/-- Insert a tone before the first tone that is not below it. -/
def insertTone {τ : Type} (tone : Pitch τ) : List (Pitch τ) → List (Pitch τ)
  | [] => [tone]
  | other :: rest =>
    if noteAtMost tone.note other.note then tone :: other :: rest else other :: insertTone tone rest

/-- Sort tones by note, equal ones in their order. -/
def sortTones {τ : Type} (tones : List (Pitch τ)) : List (Pitch τ) := tones.foldr insertTone []

namespace Chord

def sort {τ : Type} (c : Chord τ) : Chord τ := { c with tones := sortTones c.tones }

/-! ### Inversion -/

/-- The place of the tone that is moved in turn `i`, from the low end or the high end. -/
def turnPlace (size : Nat) (raising : Bool) (i : Nat) : Nat :=
  if raising then i % size else size - 1 - i % size

/-- Move one tone per inversion by an octave, in turn. -/
def turned (tones : List Pitch) (inversions : Int) : List Pitch :=
  let raising := decide (0 < inversions)
  (List.range inversions.natAbs).foldl
    (fun tones i => tones.modify (turnPlace tones.length raising i) (Pitch.shiftOctave · inversions.sign))
    tones

/-- Invert so many times; the tones are sorted before and after. -/
def invert (c : Chord) (inversions : Int) : Chord :=
  if c.tones.isEmpty || inversions == 0 then c
  else { c with tones := sortTones (turned (sortTones c.tones) inversions) }

/-! ### Resolution -/

def firstDuration {τ : Type} (tones : List (Pitch τ)) : Option τ := tones.head?.bind (·.duration)

/-- Resolve every tone, apply the inversions, and sort. -/
def resolve (c : Chord) (ambient : Options) : Chord :=
  let options := c.overrides.apply ambient
  let resolved : Chord := { c with tones := c.tones.map (Pitch.resolve · options), inversions := none }
  let sorted := (resolved.invert (c.inversions.getD 0)).sort
  { sorted with duration := firstDuration sorted.tones }

/-- Set the duration of the chord and of every tone. -/
def setDuration {τ : Type} (c : Chord τ) (duration : τ) : Chord τ :=
  { c with
    duration := some duration
    tones := c.tones.map fun tone => { tone with duration := some duration } }

def notes {τ : Type} (c : Chord τ) : List (Option Int) := c.tones.map (·.note)

end Chord

end NumberedMelody
