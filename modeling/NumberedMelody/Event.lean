/-
  NumberedMelody/Event.lean
  =========================
  **Events.**  What a pattern is played as: pitches, chords, rests, samples,
  functions, and layers of events that sound together.  The layers of a
  polyphony last as long as the longest of them and are stretched as one.
-/
import NumberedMelody.Event.Chord
import NumberedMelody.Quantity

namespace NumberedMelody

/-- A silence. -/
structure Rest (τ : Type := Float) where
  text : String
  overrides : Overrides := {}
  duration : Option τ := none
  deriving Repr, BEq, Inhabited

/-- Playback of a named sample. -/
structure Sample (τ : Type := Float) where
  text : String
  name : String
  duration : Option τ := none
  deriving Repr, BEq, Inhabited

/-- A call of something outside. -/
structure Function (τ : Type := Float) where
  text : String
  run : String
  duration : Option τ := none
  deriving Repr, BEq, Inhabited

/-- An event, its times measured in `τ`. -/
inductive Event (τ : Type := Float) where
  | pitch (p : Pitch τ)
  | chord (c : Chord τ)
  | rest (r : Rest τ)
  | sample (s : Sample τ)
  | function (f : Function τ)
  | polyphony (text : String) (layers : List (List (Event τ)))
  deriving Repr, Inhabited

namespace Event

variable {τ : Type}

/-- The text that the event was written as. -/
def text : Event τ → String
  | .pitch p => p.text
  | .chord c => c.text
  | .rest r => r.text
  | .sample s => s.text
  | .function f => f.text
  | .polyphony text _ => text

/-! ### Durations -/

section Durations

variable [Quantity τ]

mutual

/-- How long the event lasts; a polyphony lasts as long as its longest layer. -/
def duration : Event τ → Option τ
  | .pitch p => p.duration
  | .chord c => c.duration
  | .rest r => r.duration
  | .sample s => s.duration
  | .function f => f.duration
  | .polyphony _ layers => some (Quantity.greatest (layerDurations layers))

/-- The durations that the events of a layer have. -/
def durations : List (Event τ) → List τ
  | [] => []
  | e :: more =>
    match duration e with
    | some d => d :: durations more
    | none => durations more

/-- How long each layer lasts. -/
def layerDurations : List (List (Event τ)) → List τ
  | [] => []
  | layer :: more => Quantity.sum (durations layer) :: layerDurations more

end

def longest (layers : List (List (Event τ))) : τ := Quantity.greatest (layerDurations layers)

mutual

/-- Give an event a duration.  A polyphony is stretched so that its longest
    layer lasts that long; one that lasts no time is left alone. -/
def setDuration (d : τ) : Event τ → Event τ
  | .pitch p => .pitch { p with duration := some d }
  | .chord c => .chord (c.setDuration d)
  | .rest r => .rest { r with duration := some d }
  | .sample s => .sample { s with duration := some d }
  | .function f => .function { f with duration := some d }
  | .polyphony text layers =>
    let current := longest layers
    if Quantity.isAtMost current Quantity.zero then .polyphony text layers
    else .polyphony text (stretchLayers (d / current) layers)

/-- Multiply the durations of the events of a layer. -/
def stretchLayer (factor : τ) : List (Event τ) → List (Event τ)
  | [] => []
  | e :: more =>
    match duration e with
    | some d => setDuration (d * factor) e :: stretchLayer factor more
    | none => e :: stretchLayer factor more

/-- Multiply the durations of the events of every layer. -/
def stretchLayers (factor : τ) : List (List (Event τ)) → List (List (Event τ))
  | [] => []
  | layer :: more => stretchLayer factor layer :: stretchLayers factor more

end

end Durations

def beat (e : Event) : Option Float := e.duration.map (· * 4.0)

def pitch? : Event → Option Pitch
  | .pitch p => some p
  | _ => none

/-- Events that arithmetic works on: those with degrees. -/
def isPitched : Event → Bool
  | .pitch _ => true
  | .chord _ => true
  | _ => false

/-- Events with a place in a melody; samples and functions have none. -/
def isTonal : Event → Bool
  | .sample _ => false
  | .function _ => false
  | _ => true

end Event

end NumberedMelody
