/-
  NumberedMelody/Event/Field.lean
  ===============================
  **Fields of events.**  A listing asks events for one field each.  A chord
  answers with one value per tone, a polyphony with one list per layer, and an
  event without the field with nothing.
-/
import NumberedMelody.Decimal.Layout
import NumberedMelody.Event

namespace NumberedMelody

/-- What can be asked of an event. -/
inductive Field where
  | degree
  | note
  | duration
  | beat
  | octave
  | frequency
  | bend
  | event
  deriving Repr, DecidableEq, Inhabited

namespace Field

/-- The field of a name; blanks around the name do not count. -/
def ofName? (name : String) : Option Field :=
  match Text.trimmed name with
  | "pitch_class" => some .degree
  | "pc" => some .degree
  | "note" => some .note
  | "duration" => some .duration
  | "beat" => some .beat
  | "octave" => some .octave
  | "freq" => some .frequency
  | "pitch_bend" => some .bend
  | "event" => some .event
  | _ => none

/-- What is said of a name that is no field. -/
def unknown (name : String) : String := "Unknown field: " ++ Text.trimmed name

def heading : Field → String
  | .degree => "PitchClass"
  | .note => "Note"
  | .duration => "Duration"
  | .beat => "Beat"
  | .octave => "Octave"
  | .frequency => "Freq"
  | .bend => "PitchBend"
  | .event => "Event"

end Field

/-- The value of a field. -/
inductive Value where
  | int (n : Int)
  | float (x : Float)
  | list (values : List Value)
  | event (e : Event)
  | nothing
  deriving Repr, Inhabited

namespace Value

/-- An integer, if there is one. -/
def ofInt? (n : Option Int) : Value := (n.map .int).getD .nothing

def ofFloat? (x : Option Float) : Value := (x.map .float).getD .nothing

mutual

def display : Value → String
  | .int n => toString n
  | .float x => Decimal.plain x
  | .list values => "[" ++ Text.joined ", " (displayAll values) ++ "]"
  | .event e => e.text
  | .nothing => "-"

def displayAll : List Value → List String
  | [] => []
  | value :: more => display value :: displayAll more

end

end Value

def Pitch.field (field : Field) (p : Pitch) : Value :=
  match field with
  | .degree => .int p.degree
  | .note => .ofInt? p.note
  | .duration => .ofFloat? p.duration
  | .beat => .ofFloat? p.beat
  | .octave => .ofInt? p.octave
  | .frequency => .ofFloat? p.frequency
  | .bend => .ofInt? (p.bend.map Int.ofNat)
  | .event => .event (.pitch p)

namespace Event

mutual

def field (field : Field) (e : Event) : Value :=
  match field, e with
  | .event, e => .event e
  | .duration, e => .ofFloat? e.duration
  | .beat, e => .ofFloat? e.beat
  | tonal, .pitch p => p.field tonal
  | tonal, .chord c => .list (c.tones.map (Pitch.field tonal))
  | tonal, .polyphony _ layers => .list (layerFields tonal layers)
  | _, _ => .nothing

/-- A field of every event of a layer. -/
def fields (field : Field) : List Event → List Value
  | [] => []
  | e :: more => Event.field field e :: fields field more

/-- A field of every event, layer by layer. -/
def layerFields (field : Field) : List (List Event) → List Value
  | [] => []
  | layer :: more => .list (fields field layer) :: layerFields field more

end

end Event

end NumberedMelody
