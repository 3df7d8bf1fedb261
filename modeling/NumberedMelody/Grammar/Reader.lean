/-
  NumberedMelody/Grammar/Reader.lean
  ==================================
  **Readers.**  A reader takes what it recognises from the front of a text and
  hands back the rest, or recognises nothing.  Alternatives are tried in order
  and the first that succeeds is final; repetition takes as much as it can.
-/
import NumberedMelody.Text.Blank

namespace NumberedMelody

/-- Recognise something at the start of a text. -/
def Reader (α : Type) : Type := List Char → Option (α × List Char)

namespace Reader

variable {α β : Type}

/-- Take nothing. -/
protected def pure (a : α) : Reader α := fun text => some (a, text)

/-- Read on from where the first reader stopped. -/
protected def bind (p : Reader α) (f : α → Reader β) : Reader β := fun text =>
  match p text with
  | none => none
  | some (a, rest) => f a rest

instance : Monad Reader where
  pure := Reader.pure
  bind := Reader.bind

def fail : Reader α := fun _ => none

/-- The first alternative that succeeds. -/
def firstOf : List (Reader α) → Reader α
  | [] => fail
  | p :: alternatives => fun text =>
    match p text with
    | some result => some result
    | none => firstOf alternatives text

/-- What the reader recognises, or nothing at all. -/
def optional (p : Reader α) : Reader (Option α) := fun text =>
  match p text with
  | some (a, rest) => some (some a, rest)
  | none => some (none, text)

/-- Only results for which there is a value. -/
def mapSome (f : α → Option β) (p : Reader α) : Reader β := fun text =>
  match p text with
  | none => none
  | some (a, rest) => (f a).map (·, rest)

def verify (test : α → Bool) (p : Reader α) : Reader α :=
  mapSome (fun a => if test a then some a else none) p

/-- As many repetitions as there are, below a bound.  One that takes nothing
    could go on without end, and is an error. -/
def manyBelow (p : Reader α) : Nat → Reader (List α)
  | 0 => fail
  | bound + 1 => fun text =>
    match p text with
    | none => some ([], text)
    | some (a, rest) =>
      if rest.length < text.length then (manyBelow p bound rest).map fun (more, rest) => (a :: more, rest)
      else none

/-- As many repetitions as there are.  Each takes a character at least, so the
    length of the text bounds them. -/
def many (p : Reader α) : Reader (List α) := fun text => manyBelow p (text.length + 1) text

def many1 (p : Reader α) : Reader (List α) := do
  let first ← p
  let more ← many p
  return first :: more

/-- The text that a reader takes, along with what it stands for. -/
def consumed (p : Reader α) : Reader (String × α) := fun text =>
  match p text with
  | none => none
  | some (a, rest) => some ((String.ofList (text.take (text.length - rest.length)), a), rest)

/-- Look ahead without taking anything. -/
def peek (p : Reader α) : Reader α := fun text =>
  match p text with
  | none => none
  | some (a, _) => some (a, text)

/-! ### Characters -/

def satisfy (test : Char → Bool) : Reader Char := fun text =>
  match text with
  | [] => none
  | c :: rest => if test c then some (c, rest) else none

def char (c : Char) : Reader Char := satisfy (· == c)

/-- One of the characters of a string. -/
def oneOf (chars : String) : Reader Char := satisfy chars.toList.contains

def exactly : List Char → Reader Unit
  | [] => Reader.pure ()
  | c :: more => Reader.bind (char c) fun _ => exactly more

/-- One character or more that pass a test. -/
def run1 (test : Char → Bool) : Reader (List Char) := fun text =>
  match text.takeWhile test with
  | [] => none
  | c :: more => some (c :: more, text.dropWhile test)

def digits : Reader (List Char) := run1 Char.isDigit

def separators : Reader (List Char) := run1 Text.isSeparator

def atEnd : Reader Unit := fun text => if text.isEmpty then some ((), text) else none

def between (opening closing : Char) (p : Reader α) : Reader α := do
  let _ ← char opening
  let a ← p
  let _ ← char closing
  return a

end Reader

end NumberedMelody
