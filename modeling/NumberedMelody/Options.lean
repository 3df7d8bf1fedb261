/-
  NumberedMelody/Options.lean
  ===========================
  **Ambient options and overrides.**  Every item of a pattern is played
  against ambient options; an item may carry overrides of its own.  A key, a
  scale or a duration replaces the ambient one, an octave or a modifier adds
  to it, and an octave change replaces the octave before that.
-/
import NumberedMelody.Harmony.Key
import NumberedMelody.Harmony.Scale
import NumberedMelody.Named
import NumberedMelody.Rhythm.DurationMark

namespace NumberedMelody

/-- An external payload that a variable can stand for. -/
inductive Binding where
  | sample (name : String)
  | function (run : String)
  deriving Repr, DecidableEq, Inhabited

/-- The options that items are played against. -/
structure Options where
  key : Option Key := some (.name "C4")
  scale : Option Scale := some (.named Scale.ionian)
  octave : Int := 0
  /-- A fraction of a whole note. -/
  duration : Float := Rhythm.quarter
  /-- Semitones added to every pitch. -/
  modifier : Int := 0
  bpm : Float := 120.0
  /-- Where the random stream starts. -/
  seed : Option UInt64 := none
  bindings : Named Binding := []
  deriving Repr, BEq, Inhabited

/-- Options without a key and a scale: pitches stay unresolved. -/
def Options.bare : Options := { key := none, scale := none }

/-- Options in which a name stands for a payload, whatever it stood for before. -/
def Options.withBinding (name : String) (binding : Binding) (o : Options) : Options :=
  { o with bindings := Named.insert name binding o.bindings }

/-- Overrides of a single item. -/
structure Overrides where
  key : Option Key := none
  scale : Option Scale := none
  duration : Option Float := none
  /-- Added to the ambient octave. -/
  octave : Option Int := none
  /-- Replaces the ambient octave. -/
  octaveChange : Option Int := none
  /-- Added to the ambient modifier. -/
  modifier : Option Int := none
  deriving Repr, BEq, Inhabited

namespace Overrides

def isEmpty (o : Overrides) : Bool :=
  o.key.isNone && o.scale.isNone && o.duration.isNone && o.octave.isNone && o.octaveChange.isNone
    && o.modifier.isNone

def ofDuration (duration : Option Float) : Overrides := { duration }

/-- The options that an item with these overrides is played against.  Octaves and
    modifiers are counted without bounds, and so mean what they say only while
    their sums stay within 32 bits. -/
def apply (o : Overrides) (ambient : Options) : Options :=
  { ambient with
    key := o.key.or ambient.key
    scale := o.scale.or ambient.scale
    duration := o.duration.getD ambient.duration
    octave := o.octaveChange.getD ambient.octave + o.octave.getD 0
    modifier := ambient.modifier + o.modifier.getD 0 }

end Overrides

end NumberedMelody
