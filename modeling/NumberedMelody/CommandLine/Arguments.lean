/-
  NumberedMelody/CommandLine/Arguments.lean
  =========================================
  **Reading the command line.**  Arguments are taken one by one: options at
  the top level, a command, then options and operands of the command.  An
  option may have its value attached (`--key=C4`, `-kC4`) or take the next
  argument, which is looked at when more of the same level follows or when all
  is read.  Options that stand anywhere count for the command if they are
  given on both sides of it.
-/
import NumberedMelody.CommandLine.Form

namespace NumberedMelody.CommandLine

/-- The commands. -/
inductive Verb where
  | eval
  | repl
  | help
  deriving Repr, DecidableEq, Inhabited

def Verb.ofName? (name : String) : Option Verb :=
  match name with
  | "eval" => some .eval
  | "repl" => some .repl
  | "help" => some .help
  | _ => none

/-- The options that a command knows; none stands for the top level. -/
def Verb.forms : Option Verb → List Form
  | some .eval => Form.evaluation
  | some .help => []
  | _ => Form.shared

/-- What is asked for. -/
inductive Command where
  | eval (pattern : String)
  | repl
  deriving Repr, DecidableEq, Inhabited

/-- A command with what the options set. -/
structure Invocation where
  command : Command
  settings : Settings
  deriving Repr, Inhabited

/-- Why arguments are no invocation. -/
inductive Stop where
  /-- The arguments do not fit the usage. -/
  | misuse
  /-- Help on a command, or on all of them. -/
  | help (topic : Option Verb)
  deriving Repr, DecidableEq, Inhabited

/-- One level of the command line as far as it is read. -/
structure Level where
  settings : Settings := {}
  /-- The options taken so far. -/
  given : List String := []
  /-- The last option with the argument after it, as long as nothing follows
      that has the two taken. -/
  waiting : Option (Form × String) := none
  deriving Inhabited

namespace Level

def take (l : Level) (form : Form) (value : String) : Except Stop Level :=
  if l.given.contains form.long && !form.repeats then .error .misuse
  else
    match form.take value l.settings with
    | none => .error .misuse
    | some settings => .ok { l with settings, given := form.long :: l.given }

/-- Take the option that waits. -/
def settle (l : Level) : Except Stop Level :=
  match l.waiting with
  | none => .ok l
  | some (form, value) => { l with waiting := none }.take form value

end Level

/-- The command line as far as it is read. -/
structure Progress where
  verb : Option Verb := none
  /-- The level above the command. -/
  top : Level := {}
  /-- The level being read. -/
  level : Level := {}
  /-- An option that needs a value. -/
  pending : Option Form := none
  /-- After a double hyphen there are operands only. -/
  operandsOnly : Bool := false
  operands : List String := []
  deriving Inhabited

namespace Progress

/-- Take an option with its value, after the one that waits. -/
def give (p : Progress) (form : Form) (value : String) : Except Stop Progress := do
  return { p with level := ← (← p.level.settle).take form value }

/-- Ask for the value of an option. -/
def await (p : Progress) (form : Form) : Except Stop Progress := do
  return { p with level := ← p.level.settle, pending := some form }

/-- Stop for help on the level being read. -/
def stopForHelp (p : Progress) : Except Stop Progress := do
  let _ ← p.level.settle
  .error (.help p.verb)

/-- An option with a long name, and the value after an equals sign if there is one. -/
def long (p : Progress) (text : List Char) : Except Stop Progress :=
  let name := String.ofList (text.takeWhile (· != '='))
  match (Verb.forms p.verb).find? (·.long == name), text.dropWhile (· != '=') with
  | some form, [] => if form.isFlag then p.give form "" else p.await form
  | some form, _ :: value => if form.isFlag then .error .misuse else p.give form (String.ofList value)
  | none, [] => if name == "help" then p.stopForHelp else .error .misuse
  | none, _ => .error .misuse

/-- Options of one character, the last of them with its value attached. -/
def short (p : Progress) : List Char → Except Stop Progress
  | [] => .ok p
  | c :: rest =>
    match (Verb.forms p.verb).find? (·.short == some c), rest with
    | none, _ => if c = 'h' then p.stopForHelp else .error .misuse
    | some form, rest =>
      if form.isFlag then do short (← p.give form "") rest
      else
        match rest with
        | [] => p.await form
        | '=' :: value => p.give form (String.ofList value)
        | value => p.give form (String.ofList value)

/-- A word that is no option: a command, or an operand of one. -/
def word (p : Progress) (text : String) : Except Stop Progress :=
  match p.verb with
  | none =>
    match Verb.ofName? text with
    | some verb => if p.operandsOnly then .error .misuse else .ok { p with verb := some verb, top := p.level, level := {} }
    | none => .error .misuse
  | some .eval => do
    let level ← p.level.settle
    if p.operands.isEmpty then .ok { p with level, operands := [text] } else .error .misuse
  | some .repl => .error .misuse
  | some .help => .ok { p with operands := p.operands ++ [text] }

def step (p : Progress) (arg : String) : Except Stop Progress :=
  if p.operandsOnly || p.verb == some .help then p.word arg
  else
    let valued (form : Form) : Progress := { p with level := { p.level with waiting := some (form, arg) }, pending := none }
    match p.pending, arg.toList with
    | some form, '-' :: _ :: _ => if form.signed then .ok (valued form) else .error .misuse
    | some form, _ => .ok (valued form)
    | none, ['-', '-'] => .ok { p with operandsOnly := true }
    | none, '-' :: '-' :: text => p.long text
    | none, '-' :: c :: text => p.short (c :: text)
    | none, _ => p.word arg

/-- What the arguments ask for when all of them are read.  A request for help
    needs nothing else to be in order. -/
def finish (p : Progress) : Except Stop Invocation := do
  let command ← match p.pending, p.verb, p.operands with
    | none, some .eval, [pattern] => .ok (.eval pattern)
    | none, some .repl, [] => .ok .repl
    | none, some .help, [] => .error (.help none)
    | none, some .help, [topic] =>
      match Verb.ofName? topic with
      | some verb => .error (.help (some verb))
      | none => .error .misuse
    | _, _, _ => .error .misuse
  let level ← p.level.settle
  let top ← p.top.settle
  return ⟨command, top.settings.under level.settings⟩

end Progress

def Invocation.ofArguments (args : List String) : Except Stop Invocation := do
  (← args.foldlM Progress.step {}).finish

end NumberedMelody.CommandLine
