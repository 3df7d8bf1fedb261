/-
  NumberedMelody/Evaluation/Leaf.lean
  ===================================
  **Playing single items against options.**  Nothing here draws at random,
  changes the context, or looks at other nodes.
-/
import NumberedMelody.Tree.Node

namespace NumberedMelody

/-- An event with what it lacks taken from the options.  Layers have been
    resolved already when they were laid together. -/
def Event.against (options : Options) : Event → Event
  | .pitch p => .pitch (p.resolve options)
  | .chord c => .chord (c.resolve options)
  | .rest r => .rest { r with duration := r.duration.or (some (r.overrides.apply options).duration) }
  | .sample s => .sample { s with duration := s.duration.or (some options.duration) }
  | .function f => .function { f with duration := f.duration.or (some options.duration) }
  | .polyphony text layers => .polyphony text layers

/-- The pitches of a range.  The ambient octave counts twice: the range hands
    it to its pitches as an override, and they add it to the ambient octave. -/
def rangePitches (overrides : Overrides) (first last : Int) (ambient : Options) : List Pitch :=
  let carried := { overrides with octave := some (overrides.octave.getD ambient.octave) }
  (integersBetween first last).map fun degree => .generated degree (toString degree) carried ambient

end NumberedMelody
