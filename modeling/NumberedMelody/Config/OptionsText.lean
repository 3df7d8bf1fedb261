/-
  NumberedMelody/Config/OptionsText.lean
  ======================================
  **Options as text.**  A configuration is a TOML document or else a JSON
  document.  Options are written as TOML: first the plain values in their
  order, then the tables, an array of two values or more over several lines.
  What is no option may hold anything that is well formed.
-/
import NumberedMelody.Config.Json
import NumberedMelody.Config.OptionsDocument
import NumberedMelody.Config.Toml
import NumberedMelody.Decimal.Layout
import NumberedMelody.Failure
import NumberedMelody.Text.Quoted

namespace NumberedMelody

namespace Toml

/-! ### Writing values -/

/-- A double: a whole one keeps a point. -/
def numberText (x : Float) : String :=
  match Binary64.value x with
  | .nan => Decimal.signed (Binary64.isNegative x) "nan"
  | .infinite negative => Decimal.signed negative "inf"
  | .finite .. =>
    let plain := Decimal.plain x
    if plain.toList.contains '.' then plain else plain ++ ".0"

def escaped (manyLines : Bool) (c : Char) : String :=
  if c.toNat = 8 then "\\b"
  else if c = '\t' then "\\t"
  else if c = '\n' then (if manyLines then "\n" else "\\n")
  else if c.toNat = 12 then "\\f"
  else if c = '\r' then "\\r"
  else if c = '"' then "\\\""
  else if c = '\\' then "\\\\"
  else if c.toNat < 32 ∨ c.toNat = 127 then "\\u" ++ (Text.hexPadded 4 c.toNat).map Char.toUpper
  else c.toString

/-- The most copies of a character in a row. -/
def longestRun (c : Char) (text : List Char) : Nat :=
  (text.foldl (fun (most, current) d => if d = c then (max most (current + 1), current + 1) else (most, 0)) (0, 0)).1

/-- Characters that can only be written as escapes. -/
def needsEscape (c : Char) : Bool := c != '\n' && !isPlain c

/-- The characters of a text between tripled quotation marks, after so many
    marks in a row; a third one is escaped, so that no three close the text. -/
def linesEscaped (marks : Nat) : List Char → String
  | [] => ""
  | c :: more =>
    if c = '"' then if marks < 2 then "\"" ++ linesEscaped (marks + 1) more else "\\\"" ++ linesEscaped 0 more
    else escaped true c ++ linesEscaped 0 more

/-- A text on one line between quotation marks. -/
def lineQuoted (chars : List Char) : String := "\"" ++ String.join (chars.map (escaped false)) ++ "\""

/-- A text between tripled signs; one of several lines starts on a new line. -/
def tripled (sign : String) (chars : List Char) (body : String) : String :=
  sign ++ (if chars.contains '\n' then "\n" else "") ++ body ++ sign

/-- A text: in the first of four forms that takes it without escapes, which are
    quotation marks, apostrophes, tripled quotation marks and tripled
    apostrophes; else between quotation marks, tripled for several lines. -/
def stringText (text : String) : String :=
  let chars := text.toList
  let isSpecial := chars.any needsEscape
  let hasBackslash := chars.contains '\\'
  let manyLines := chars.contains '\n'
  if !isSpecial && !hasBackslash && !chars.contains '"' && !manyLines then lineQuoted chars
  else if !isSpecial && !chars.contains '\'' && !manyLines then "'" ++ text ++ "'"
  else if !isSpecial && !hasBackslash && longestRun '"' chars ≤ 2 then
    tripled "\"\"\"" chars (linesEscaped 0 chars)
  else if !isSpecial && longestRun '\'' chars ≤ 2 then tripled "'''" chars text
  else if manyLines then tripled "\"\"\"" chars (linesEscaped 0 chars)
  else lineQuoted chars

def keyText (name : String) : String :=
  let chars := name.toList
  if !chars.isEmpty && chars.all (fun c => c.isAlphanum || c = '_' || c = '-') then name
  else if chars.any (fun c => c = '"' || c = '\\') && chars.all (fun c => c != '\'' && isPlain c) then
    "'" ++ name ++ "'"
  else lineQuoted chars

def arrayText (numbers : List Float) : String :=
  match numbers with
  | [] => "[]"
  | [x] => "[" ++ numberText x ++ "]"
  | numbers => "[\n" ++ String.join (numbers.map fun x => "    " ++ numberText x ++ ",\n") ++ "]"

/-- A line that gives a name a value. -/
def lineText (name value : String) : String := keyText name ++ " = " ++ value ++ "\n"

end Toml

namespace Options

open Toml

def keyLine : Key → String
  | .midi note => lineText "key" (toString note)
  | .name name => lineText "key" (stringText name)

/-- The line of a scale; steps in cents have a table instead. -/
def scaleLine : Scale → String
  | .named name => lineText "scale" (stringText name)
  | .steps semitones => lineText "scale" (arrayText semitones)
  | .cents _ => ""

/-- The table of a scale in cents. -/
def scaleTable : Scale → String
  | .cents hundredths => "\n[scale]\n" ++ lineText "cents" (arrayText hundredths)
  | _ => ""

def bindingTable (name : String) (binding : Binding) : String :=
  let header := "\n[bindings." ++ keyText name ++ "]\n"
  header ++ match binding with
    | .sample sample => lineText "type" "\"sample\"" ++ lineText "name" (stringText sample)
    | .function run => lineText "type" "\"function\"" ++ lineText "run" (stringText run)

/-- Options as a document.  A seed beyond the signed 64-bit integers has no text. -/
def toToml (o : Options) : Except Failure String :=
  if (o.seed.map fun seed => decide (9223372036854775807 < seed.toNat)) == some true then
    .error .malformedConfig
  else
    .ok <| String.join
      [(o.key.map keyLine).getD "",
        (o.scale.map scaleLine).getD "",
        lineText "octave" (toString o.octave),
        lineText "duration" (numberText o.duration),
        lineText "modifier" (toString o.modifier),
        lineText "bpm" (numberText o.bpm),
        (o.seed.map fun seed => lineText "seed" (toString seed.toNat)).getD "",
        (o.scale.map scaleTable).getD "",
        String.join (o.bindings.map fun (name, binding) => bindingTable name binding)]

/-- Options from the text of a configuration. -/
def read (content : String) : Except Failure Options :=
  match (Toml.read? content).bind ofDocument? with
  | some options => .ok options
  | none =>
    match (Json.readWith? fieldNames.contains content).bind ofDocument? with
    | some options => .ok options
    | none => .error .malformedConfig

/-- Writing options and reading them again gives the same options. -/
def survives (o : Options) : Bool :=
  match o.toToml.bind read with
  | .ok back => back == o
  | .error _ => false

end Options

end NumberedMelody
