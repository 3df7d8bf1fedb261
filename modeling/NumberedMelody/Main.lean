/-
  NumberedMelody/Main.lean
  ========================
  **The program.**  Files are read, lines are asked for, and outcomes are
  printed here; what is printed is decided elsewhere.
-/
import NumberedMelody.CommandLine.Session

namespace NumberedMelody.CommandLine

/-- Print an outcome and hand on its code. -/
def Outcome.print (o : Outcome) : IO UInt32 := do
  IO.print o.output
  (← IO.getStdout).flush
  IO.eprint o.errors
  return o.code.toUInt32

/-- The text of a file, if it can be read. -/
def fileText? (path : String) : IO (Option String) := do
  try return some (← IO.FS.readFile path)
  catch _ => return none

/-- Prompt for a line and reply to it, until a line ends the reading. -/
partial def converse (options : Options) : IO UInt32 := do
  IO.print prompt
  (← IO.getStdout).flush
  let line ← (← IO.getStdin).getLine
  if line.isEmpty then return 0
  match reply options line with
  | none => return 0
  | some outcome =>
    let _ ← outcome.print
    converse options

/-- Run the command line in the world outside. -/
def runProgram (args : List String) : IO UInt32 := do
  match Invocation.ofArguments args with
  | .error stop => stop.outcome.print
  | .ok i =>
    let content ← match i.settings.config with
      | some path => fileText? path
      | none => pure none
    match i.options (fun _ => content), i.command with
    | .error outcome, _ => outcome.print
    | .ok options, .eval _ => (i.run options "").print
    | .ok options, .repl =>
      IO.print banner
      converse options

end NumberedMelody.CommandLine

/-- The program. -/
def main (args : List String) : IO UInt32 := NumberedMelody.CommandLine.runProgram args
