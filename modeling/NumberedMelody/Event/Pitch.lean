/-
  NumberedMelody/Event/Pitch.lean
  ===============================
  **Pitches.**  A pitch is a degree with its overrides; played against
  options it takes up octave, modifier, duration, key and scale, and with a
  key and a scale its note, frequency and pitch bend.  What is set already is
  left alone.
-/
import NumberedMelody.Failure
import NumberedMelody.Harmony.Degree
import NumberedMelody.Options

namespace NumberedMelody

/-- A scale degree, possibly resolved to a note. -/
structure Pitch (τ : Type := Float) where
  text : String
  overrides : Overrides := {}
  degree : Int
  octave : Option Int := none
  modifier : Option Int := none
  duration : Option τ := none
  note : Option Int := none
  frequency : Option Float := none
  bend : Option Nat := none
  key : Option Key := none
  scale : Option Scale := none
  deriving Repr, BEq, Inhabited

namespace Pitch

def ofDegree (degree : Int) : Pitch := { text := toString degree, degree }

/-- Take up what is unset from the overrides applied to ambient options. -/
def adopt (p : Pitch) (ambient : Options) : Pitch :=
  let options := p.overrides.apply ambient
  { p with
    key := p.key.or options.key
    scale := p.scale.or options.scale
    duration := p.duration.or (some options.duration)
    octave := p.octave.or (some options.octave)
    modifier := p.modifier.or (some options.modifier) }

/-- Compute note, frequency and bend if key and scale are known.  An existing
    note is kept unless it is forced. -/
def tune (p : Pitch) (force : Bool) : Pitch :=
  if p.note.isSome && !force then p
  else
    match p.key, p.scale with
    | some key, some scale =>
      let note := Harmony.exactNote key.toMidi p.degree scale (p.octave.getD 0) (p.modifier.getD 0)
      { p with
        note := some (Binary64.floor32 note)
        frequency := some (Harmony.frequency note)
        bend := Harmony.pitchBend note }
    | _, _ => p

def resolve (p : Pitch) (ambient : Options) : Pitch := (p.adopt ambient).tune false

def isResolved (p : Pitch) : Bool := p.note.isSome

/-- The note, if key and scale ever reached the pitch. -/
def tryNote (p : Pitch) : Except Failure Int :=
  match p.note with
  | some note => .ok note
  | none => .error (.unresolvedPitch p.text)

/-- Move by octaves of the pitch's own scale; without a scale an octave has
    twelve semitones. -/
def shiftOctave (p : Pitch) (octaves : Int) : Pitch :=
  let span := (p.scale.map Scale.span).getD 12.0
  let shift := span * Float.ofInt octaves
  let p := { p with octave := some (p.octave.getD 0 + octaves) }
  match p.note with
  | some note =>
    { p with
      note := some (note + Binary64.round32 shift)
      frequency := p.frequency.map (· * Harmony.raise (shift / 12.0)) }
  | none => p

def beat (p : Pitch) : Option Float := p.duration.map (· * 4.0)

/-- A generated degree with its text and overrides, resolved. -/
def generated (degree : Int) (text : String) (overrides : Overrides) (ambient : Options) : Pitch :=
  resolve { text, overrides, degree } ambient

end Pitch

end NumberedMelody
