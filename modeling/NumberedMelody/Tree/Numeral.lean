/-
  NumberedMelody/Tree/Numeral.lean
  ================================
  **Roman numerals.**  A numeral is spelled out as the chord on a degree of the
  scale.  It keeps the last chord that it came to, with the options that this
  chord was built for, so that it need not be spelled out again while the
  options stay the same.
-/
import NumberedMelody.Event
import NumberedMelody.Harmony.ChordTemplate
import NumberedMelody.Harmony.RomanNumeral
import NumberedMelody.Harmony.Spelling

namespace NumberedMelody

/-- A chord on a degree of the scale, written as a roman numeral. -/
structure RomanNumeral where
  text : String
  overrides : Overrides := {}
  symbols : String
  chordName : Option String := none
  inversions : Option Int := none
  deriving Repr, BEq, Inhabited

namespace RomanNumeral

/-- A tone of a roman numeral: its note is fixed, its degree is how the note is
    spelled in the key. -/
def tone (options : Options) (key : Key) (scale : Scale) (note : Int) : Pitch :=
  let spelled := Harmony.spell note key scale
  { text := spelled.text
    degree := spelled.degree
    octave := some spelled.octave
    modifier := some spelled.modifier
    duration := some options.duration
    note := some note
    frequency := some (Harmony.frequency (Float.ofInt note))
    key := some key
    scale := some scale }

/-- The chord of a numeral for options that its overrides are part of. -/
def chordFor (r : RomanNumeral) (options : Options) : Except Failure Chord :=
  match options.key, options.scale with
  | some key, some scale =>
    match Harmony.romanValue? r.symbols with
    | none => .error (.invalidNumeral r.symbols)
    | some degree =>
      let shift := options.octave * Binary64.round32 scale.span + options.modifier
      let notes := Harmony.degreeChord degree r.chordName scale key.toMidi 1
      let chord : Chord :=
        { text := r.text
          tones := notes.map fun note => tone options key scale (note + shift)
          inversions := r.inversions }
      .ok (chord.resolve options)
  | _, _ => .error (.unresolvedNumeral r.text)

/-- The chord of a numeral against ambient options. -/
def chord (r : RomanNumeral) (ambient : Options) : Except Failure Chord := r.chordFor (r.overrides.apply ambient)

end RomanNumeral

/-- A numeral with the last chord it came to. -/
structure KeptNumeral where
  numeral : RomanNumeral
  /-- The chord and the options that it was built for. -/
  kept : Option (Options × Chord) := none
  /-- What is kept is the chord for those options. -/
  faithful : ∀ {since chord}, kept = some (since, chord) → numeral.chordFor since = .ok chord := by nofun
  deriving Repr

instance : Inhabited KeptNumeral := ⟨{ numeral := default }⟩

namespace KeptNumeral

/-- The chord kept for options that compare equal to these. -/
def keptFor (k : KeptNumeral) (options : Options) : Option Chord :=
  (k.kept.filter (·.1 == options)).map (·.2)

/-- The numeral with another chord kept. -/
def keep (k : KeptNumeral) (options : Options) (chord : Chord) (h : k.numeral.chordFor options = .ok chord) :
    KeptNumeral where
  numeral := k.numeral
  kept := some (options, chord)
  faithful := by
    rintro _ _ ⟨⟩
    exact h

end KeptNumeral

end NumberedMelody
