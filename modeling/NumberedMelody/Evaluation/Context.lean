/-
  NumberedMelody/Evaluation/Context.lean
  ======================================
  **The context of evaluation:** the ambient options, the options that the
  pattern started with, the bars passed, and the variables.
-/
import NumberedMelody.Tree.Node

namespace NumberedMelody

/-- Ambient state of one evaluation. -/
structure Context where
  options : Options
  /-- What a bar line goes back to. -/
  start : Options
  /-- Bar lines passed. -/
  measure : Nat := 0
  /-- The values of variables. -/
  stored : Named Node := []
  deriving Repr, Inhabited

namespace Context

/-- The context that a pattern starts in. -/
def ofOptions (options : Options) : Context := { options, start := options }

/-- The context inside a group with overrides. -/
def inside (context : Context) (overrides : Overrides) : Context :=
  if overrides.isEmpty then context else { context with options := overrides.apply context.options }

/-- After a control item. -/
def after (context : Context) (change : Change) : Context :=
  let options := context.options
  { context with
    options := match change with
      | .duration value => { options with duration := value }
      | .octave value => { options with octave := value }
      | .octaveAdd shift => { options with octave := options.octave + shift } }

/-- After a bar line. -/
def nextMeasure (context : Context) : Context :=
  { context with options := context.start, measure := context.measure + 1 }

def assign (context : Context) (name : String) (value : Node) : Context :=
  { context with stored := context.stored.insert name value }

end Context

end NumberedMelody
