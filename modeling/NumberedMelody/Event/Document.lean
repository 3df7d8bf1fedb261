/-
  NumberedMelody/Event/Document.lean
  ==================================
  **Events as documents.**  An event is a table that names its type first.
  What is unknown is null, but a pitch bend and an inversion that are not there
  are left out.
-/
import NumberedMelody.Config.Document
import NumberedMelody.Event

namespace NumberedMelody

namespace Document

/-- An entry, if there is a value for it. -/
def entryIf {α : Type} (name : String) (write : α → Document) (a : Option α) : List (String × Document) :=
  (a.map fun a => (name, write a)).toList

def orNull {α : Type} (write : α → Document) (a : Option α) : Document := (a.map write).getD .null

end Document

open Document

def Pitch.entries (p : Pitch) : List (String × Document) :=
  [("text", .text p.text),
    ("pitch_class", .integer p.degree),
    ("octave", orNull .integer p.octave),
    ("modifier", orNull .integer p.modifier),
    ("duration", orNull .number p.duration),
    ("note", orNull .integer p.note),
    ("freq", orNull .number p.frequency)]
    ++ entryIf "pitch_bend" (fun (bend : Nat) => .integer bend) p.bend

def Chord.entries (c : Chord) : List (String × Document) :=
  [("text", .text c.text), ("pitch_classes", .list (c.tones.map fun tone => .table tone.entries))]
    ++ entryIf "inversions" .integer c.inversions
    ++ [("duration", orNull .number c.duration)]

namespace Event

mutual

def document : Event → Document
  | .pitch p => .table (("type", .text "pitch") :: p.entries)
  | .chord c => .table (("type", .text "chord") :: c.entries)
  | .rest r => .table [("type", .text "rest"), ("text", .text r.text), ("duration", orNull .number r.duration)]
  | .sample s =>
    .table
      [("type", .text "sample"), ("text", .text s.text), ("name", .text s.name),
        ("duration", orNull .number s.duration)]
  | .function f =>
    .table
      [("type", .text "function"), ("text", .text f.text), ("run", .text f.run),
        ("duration", orNull .number f.duration)]
  | .polyphony text layers =>
    .table [("type", .text "polyphony"), ("text", .text text), ("layers", .list (layerDocuments layers))]

def documents : List Event → List Document
  | [] => []
  | e :: more => document e :: documents more

def layerDocuments : List (List Event) → List Document
  | [] => []
  | layer :: more => .list (documents layer) :: layerDocuments more

end

end Event

end NumberedMelody
