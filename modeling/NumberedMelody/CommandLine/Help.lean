/-
  NumberedMelody/CommandLine/Help.lean
  ====================================
  **Help pages**, laid out in columns from the forms of the options.
-/
import NumberedMelody.CommandLine.Arguments
import NumberedMelody.Text.Line

namespace NumberedMelody.CommandLine

open Text

/-- Rows of two columns, the first as wide as its widest cell. -/
def twoColumns (rows : List (String × String)) : String :=
  let width := (rows.map (·.1.length)).foldl max 0
  String.join (rows.map fun (left, right) => "  " ++ padRight width left ++ "  " ++ right ++ "\n")

def Form.row (f : Form) : String × String :=
  let short := match f.short with
    | some c => "-" ++ c.toString ++ ", "
    | none => spaces 4
  let label := match f.label with
    | some label => " <" ++ label ++ ">"
    | none => ""
  (short ++ "--" ++ f.long ++ label, f.about)

/-- The options of a page, and the request for help. -/
def optionRows (forms : List Form) : List (String × String) :=
  forms.map Form.row ++ [("-h, --help", "Print help")]

/-- A page from what it is about, the usage and sections of rows. -/
def page (about usage : String) (sections : List (String × List (String × String))) : String :=
  about ++ "\n\nUsage: " ++ usage ++ "\n"
    ++ String.join (sections.map fun (title, rows) => "\n" ++ title ++ ":\n" ++ twoColumns rows)

def Verb.about : Verb → String
  | .eval => "Evaluate a pattern and print its events"
  | .repl => "Read patterns line by line from stdin"
  | .help => "Print this message or the help of the given subcommand(s)"

/-- The help page of a command, or of the program. -/
def helpPage : Option Verb → String
  | none =>
    page "Numeric music notation evaluator" "ziffers [OPTIONS] <COMMAND>"
      [("Commands",
          [("eval", Verb.eval.about), ("repl", Verb.repl.about), ("help", Verb.help.about)]),
        ("Options", optionRows (Verb.forms none))]
  | some .eval =>
    page Verb.eval.about "ziffers eval [OPTIONS] <PATTERN>"
      [("Arguments", [("<PATTERN>", "Pattern text, e.g. \"q 0 2 4 [5 6]\"")]),
        ("Options", optionRows (Verb.forms (some .eval)))]
  | some .repl =>
    page Verb.repl.about "ziffers repl [OPTIONS]" [("Options", optionRows (Verb.forms (some .repl)))]
  | some .help =>
    page Verb.help.about "ziffers help [COMMAND]..."
      [("Arguments", [("[COMMAND]...", "Print help for the subcommand(s)")])]

end NumberedMelody.CommandLine
