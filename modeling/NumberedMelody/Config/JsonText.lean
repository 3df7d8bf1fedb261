/-
  NumberedMelody/Config/JsonText.lean
  ===================================
  **Writing JSON documents** with an item to a line and two spaces to a level.
  A number that is not finite has no text and is written as null; a date or
  a time is written as a text.
-/
import NumberedMelody.Config.Document
import NumberedMelody.Decimal.Layout
import NumberedMelody.Text.Line
import NumberedMelody.Text.Quoted

namespace NumberedMelody.Json

/-- The spaces in front of a line at a level. -/
def indent (level : Nat) : String := Text.spaces (2 * level)

/-- Items between two signs, one to a line; without items the signs alone. -/
def block (level : Nat) (opening closing : String) (items : List String) : String :=
  if items.isEmpty then opening ++ closing
  else
    let lines := items.map fun item => indent (level + 1) ++ item
    opening ++ "\n" ++ Text.joined ",\n" lines ++ "\n" ++ indent level ++ closing

mutual

/-- A document that stands at a level. -/
def pretty (level : Nat) : Document → String
  | .null => "null"
  | .bool true => "true"
  | .bool false => "false"
  | .integer value => toString value
  | .number value => (Decimal.document? value).getD "null"
  | .text value => Text.documentQuoted value
  | .moment written => Text.documentQuoted written
  | .list items => block level "[" "]" (prettyItems (level + 1) items)
  | .table entries => block level "\x7b" "\x7d" (prettyEntries (level + 1) entries)

def prettyItems (level : Nat) : List Document → List String
  | [] => []
  | item :: more => pretty level item :: prettyItems level more

def prettyEntries (level : Nat) : List (String × Document) → List String
  | [] => []
  | (name, value) :: more =>
    (Text.documentQuoted name ++ ": " ++ pretty level value) :: prettyEntries level more

end

end NumberedMelody.Json
