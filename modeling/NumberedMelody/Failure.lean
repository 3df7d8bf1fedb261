/-
  NumberedMelody/Failure.lean
  ===========================
  **What can go wrong** between the text of a pattern and its events, and how
  it is said.
-/
import NumberedMelody.Diagnosis
import NumberedMelody.Tree.Operator

namespace NumberedMelody

/-- The causes of failure. -/
inductive Failure where
  /-- Text that the grammar could not consume. -/
  | unreadable (diagnosis : Diagnosis)
  /-- A roman numeral with other symbols than its own. -/
  | invalidNumeral (numeral : String)
  /-- A roman numeral played without a key or a scale. -/
  | unresolvedNumeral (text : String)
  /-- A pitch asked for its note without a key or a scale. -/
  | unresolvedPitch (text : String)
  /-- A subdivision with nothing to share its duration. -/
  | emptySubdivision
  /-- An item in the place of a number that yields no single pitch. -/
  | noNumber (text : String)
  /-- A euclidean rhythm without onsets to deal. -/
  | noOnset (text : String)
  /-- A pattern that yields no event. -/
  | emptyPattern (text : String)
  | divisionByZero
  /-- A degree outside the 32-bit integers. -/
  | overflow (a : Int) (op : Arithmetic) (b : Int)
  /-- A variable used before any assignment or binding. -/
  | unknownVariable (name : String)
  /-- The variable of an expression that is not applied to a list. -/
  | unboundVariable
  /-- Events asked for before the first cycle was evaluated. -/
  | uninitialized
  /-- A configuration that is in none of the accepted formats. -/
  | malformedConfig
  /-- A file that cannot be read. -/
  | unreadableFile
  /-- Variables that stand for one another without end: no failure that a caller
      gets to see, but the end of the call stack. -/
  | nestedTooDeep
  deriving Repr, DecidableEq, Inhabited

def Failure.message : Failure → String
  | .unreadable diagnosis => diagnosis.display
  | .invalidNumeral numeral => "Invalid roman numeral: '" ++ numeral ++ "'"
  | .unresolvedNumeral text => "Cannot resolve roman numeral '" ++ text ++ "' without key and scale"
  | .unresolvedPitch text => "Cannot resolve pitch '" ++ text ++ "' without key and scale"
  | .emptySubdivision => "Empty subdivision"
  | .noNumber text => "Empty number '" ++ text ++ "'"
  | .noOnset text => "Empty euclid onset '" ++ text ++ "'"
  | .emptyPattern text => "Empty pattern '" ++ text ++ "'"
  | .divisionByZero => "Division by zero"
  | .overflow a op b =>
    "Arithmetic overflow in " ++ toString a ++ " " ++ op.word ++ " " ++ toString b
  | .unknownVariable name => "Unknown variable: " ++ name
  | .unboundVariable => "Expression uses x outside of a list operation"
  | .uninitialized => "Sequence used before init"
  | .malformedConfig => "Configuration error: not valid TOML or JSON"
  | .unreadableFile => "IO error: No such file or directory (os error 2)"
  | .nestedTooDeep => "Variables nested too deeply"

end NumberedMelody
