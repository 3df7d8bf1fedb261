/-
  NumberedMelody/CommandLine/Listing.lean
  =======================================
  **What is printed of a melody:** a numbered line per event with a summary of
  the cycle, a line per field, or a document.
-/
import NumberedMelody.Config.JsonText
import NumberedMelody.Event.Document
import NumberedMelody.Melody

namespace NumberedMelody.CommandLine

open Text

/-- A note, or a hyphen. -/
def noteText (note : Option Int) : String := (note.map toString).getD "-"

/-- A duration; none counts as zero. -/
def durationText (duration : Option Float) : String := Decimal.plain (duration.getD 0.0)

/-- The text of an event, filled up to eight characters, before its details. -/
def described (text details : String) : String := padRight 8 text ++ " " ++ details

/-- The texts of the events of a layer. -/
def layerText (layer : List Event) : String := joined " " (layer.map fun e => trimmed e.text)

def describe (e : Event) : String :=
  let length := "dur=" ++ durationText e.duration
  described e.text <| match e with
    | .pitch p => "pc=" ++ toString p.degree ++ " note=" ++ noteText p.note ++ " " ++ length
    | .chord c => "notes=[" ++ joined "," (c.notes.map noteText) ++ "] " ++ length
    | .polyphony _ layers => "layers=[" ++ joined " | " (layers.map layerText) ++ "] " ++ length
    | _ => length

def numberedLines (first : Nat) : List Event → String
  | [] => ""
  | e :: more => padLeft 4 (toString first) ++ "  " ++ describe e ++ "\n" ++ numberedLines (first + 1) more

/-- The events of the current cycle counted, in events and in beats. -/
def summary (m : Melody) : String :=
  spaces 6 ++ toString m.events.length ++ " events, " ++ Decimal.plain m.totalBeats ++ " beats per cycle\n"

/-- The values of a field on a line. -/
def fieldLine (field : Field) (values : List Value) : String :=
  field.heading ++ ": " ++ joined " " (values.map Value.display) ++ "\n"

/-- Some events of a melody as they are printed: by fields if fields are asked
    for, else as a document or as a listing. -/
def listing (m : Melody) (count : Nat) (fields : List Field) (json : Bool) : Except Failure String :=
  if fields.isEmpty then
    let (m, events) := m.take count
    events.map fun events =>
      if json then Json.pretty 0 (.list (events.map Event.document)) ++ "\n"
      else numberedLines 0 events ++ summary m
  else (m.collect count fields).2.map fun rows => String.join (List.zipWith fieldLine fields rows)

end NumberedMelody.CommandLine
