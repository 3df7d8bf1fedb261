/-
  NumberedMelody/CommandLine/Session.lean
  =======================================
  **Running a command line.**  Options come from a configuration file, if one
  is named, and then from the arguments.  A pattern is played and listed, or
  patterns are read line by line, each from the same options.
-/
import NumberedMelody.CommandLine.Help
import NumberedMelody.CommandLine.Listing
import NumberedMelody.Config.OptionsText

namespace NumberedMelody.CommandLine

/-- What a run leaves behind. -/
structure Outcome where
  code : Nat := 0
  output : String := ""
  errors : String := ""
  deriving Repr, DecidableEq, Inhabited

/-- Print something more; the later run decides the code. -/
def Outcome.followedBy (first second : Outcome) : Outcome :=
  ⟨second.code, first.output ++ second.output, first.errors ++ second.errors⟩

/-! ### Options -/

/-- A key from the command line: a MIDI note if it is an integer, else a name. -/
def keyOfArgument (text : String) : Key :=
  match Decimal.readInt32? text.toList with
  | some note => .midi note
  | none => .name text

/-- The options of a configuration file, or the defaults without one. -/
def configured (files : String → Option String) (path : Option String) : Except Failure Options :=
  match path with
  | none => .ok {}
  | some path =>
    match files path with
    | none => .error .unreadableFile
    | some content => Options.read content

def Settings.applyTo (s : Settings) (o : Options) : Options :=
  { o with
    key := (s.key.map keyOfArgument).or o.key
    scale := (s.scale.map .named).or o.scale
    octave := s.octave.getD o.octave
    duration := s.duration.getD o.duration
    seed := s.seed.or o.seed }

/-! ### Failures -/

/-- A run that ends early with an error. -/
def failedWith (text : String) : Outcome := { code := 1, errors := "Error: " ++ text ++ "\n" }

/-- How a failure to find the options is shown. -/
def optionsFailure : Failure → String
  | .unreadableFile => "Io(Os \x7b code: 2, kind: NotFound, message: \"No such file or directory\" \x7d)"
  | other => "Config(" ++ Text.argumentQuoted other.message ++ ")"

/-- Warnings about a pattern, under a heading if there are any. -/
def warningBlock (pattern : String) : String :=
  match Diagnosis.warnings pattern with
  | [] => ""
  | warnings =>
    "⚠️  Additional warnings:\n" ++ String.join (warnings.map fun warning => "  • " ++ warning ++ "\n")

/-- A failure to play a pattern; one that could not be read is looked at for
    common mistakes. -/
def failureText (pattern : String) (failure : Failure) : String :=
  failure.message ++ "\n" ++ match failure with
    | .unreadable _ => warningBlock pattern
    | _ => ""

/-! ### Commands -/

/-- Play a pattern and list its events: as many as asked for, or one cycle. -/
def evaluation (pattern : String) (options : Options) (count : Option Nat) (fields : List Field) (json : Bool) :
    Outcome :=
  let listed := do
    let melody ← play pattern options
    listing melody (count.getD melody.events.length) fields json
  match listed with
  | .ok output => { output }
  | .error failure => { code := 1, errors := failureText pattern failure }

def fieldsOfNames (names : List String) : Except String (List Field) :=
  names.mapM fun name =>
    match Field.ofName? name with
    | some field => .ok field
    | none => .error (Field.unknown name)

/-- What is printed before the first line is read. -/
def banner : String := "🎵 Ziffers REPL (empty line, 'exit' or 'quit' to leave)\n"

def prompt : String := "> "

/-- A line that ends the reading of patterns. -/
def isLeaving (line : String) : Bool := line.isEmpty || line == "exit" || line == "quit"

/-- What a typed line leads to; nothing more after a line that ends the reading. -/
def reply (options : Options) (line : String) : Option Outcome :=
  let pattern := Text.trimmed line
  if isLeaving pattern then none else some { evaluation pattern options none [] false with code := 0 }

/-- Prompt for lines and reply to them, up to one that ends the reading. -/
def dialogue (options : Options) : List String → Outcome
  | [] => { output := prompt }
  | line :: more =>
    match reply options line with
    | none => { output := prompt }
    | some replied => (Outcome.followedBy { output := prompt } replied).followedBy (dialogue options more)

/-- Run a command with the options that it is to start from. -/
def Invocation.run (i : Invocation) (options : Options) (input : String) : Outcome :=
  match i.command with
  | .eval pattern =>
    match fieldsOfNames i.settings.fields with
    | .error unknown => failedWith (Text.argumentQuoted unknown)
    | .ok fields => evaluation pattern options i.settings.count fields i.settings.json
  | .repl =>
    Outcome.followedBy { output := banner }
      (dialogue options ((Text.lines input.toList).map String.ofList))

/-- The options of an invocation, or how the run ends without them. -/
def Invocation.options (i : Invocation) (files : String → Option String) : Except Outcome Options :=
  match configured files i.settings.config with
  | .error failure => .error (failedWith (optionsFailure failure))
  | .ok options => .ok (i.settings.applyTo options)

/-- How a run ends whose arguments are no invocation. -/
def Stop.outcome : Stop → Outcome
  | .misuse => { code := 2, errors := "error: the arguments do not fit the usage\n\nFor more information, try '--help'.\n" }
  | .help topic => { output := helpPage topic }

/-- Run a command line, given the texts of files and the standard input. -/
def run (files : String → Option String) (input : String) (args : List String) : Outcome :=
  match Invocation.ofArguments args with
  | .error stop => stop.outcome
  | .ok i =>
    match i.options files with
    | .error outcome => outcome
    | .ok options => i.run options input

end NumberedMelody.CommandLine
