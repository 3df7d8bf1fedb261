/-
  NumberedMelody/Diagnosis.lean
  =============================
  **Why a pattern could not be read.**  A diagnosis says where reading
  stopped, what is likely wrong there, and how the right form looks.  Columns
  count bytes; previews count characters.
-/
import NumberedMelody.Text.Blank
import NumberedMelody.Text.Line

namespace NumberedMelody

open Text

/-- Where reading stopped and why. -/
structure Diagnosis where
  line : Nat
  column : Nat
  message : String
  hint : Option String
  sourceLine : String
  deriving Repr, DecidableEq, Inhabited

namespace Diagnosis

/-- The diagnosis as it is shown: the place, the line with a mark under the
    column, the message, and the hint if there is one. -/
def display (d : Diagnosis) : String :=
  let place := "❌ Parse Error at line " ++ toString d.line ++ ":" ++ toString d.column ++ "\n\n"
  let shown := "  " ++ d.sourceLine ++ "\n  " ++ spaces (d.column - 1) ++ "^\n\n"
  let hint := match d.hint with
    | some hint => "\n💡 Hint: " ++ hint ++ "\n"
    | none => ""
  place ++ shown ++ "Error: " ++ d.message ++ "\n" ++ hint

/-! ### Where -/

/-- The line that holds a byte offset, counted from `number`, with the column
    in it.  Every line counts one byte for its end. -/
def locateFrom (offset : Nat) : Nat → List (List Char) → Option (Nat × Nat × List Char)
  | _, [] => none
  | number, line :: more =>
    let length := byteLength line + 1
    if offset < length then some (number, offset + 1, line)
    else locateFrom (offset - length) (number + 1) more

/-- Line, column and text of the line at a byte offset; past the last line, its end. -/
def locate (offset : Nat) (input : List Char) : Nat × Nat × List Char :=
  let all := lines input
  let last := all.getLast?.getD []
  (locateFrom offset 1 all).getD (max all.length 1, byteLength last + 1, last)

/-! ### Why -/

/-- A pair of brackets and what they enclose. -/
structure Brackets where
  opening : Char
  closing : Char
  name : String

/-- The brackets of the notation, in the order in which they are checked. -/
def brackets : List Brackets :=
  [⟨'(', ')', "list"⟩, ⟨'[', ']', "subdivision"⟩, ⟨'<', '>', "cycle"⟩, ⟨'\x7b', '\x7d', "expression"⟩]

/-- A message with a hint. -/
abbrev Finding := String × Option String

/-- Brackets that occur more often on one side than on the other. -/
def unbalanced (input : List Char) (b : Brackets) : Option Finding :=
  let opened := input.count b.opening
  let closed := input.count b.closing
  let opening := b.opening.toString
  let closing := b.closing.toString
  if closed < opened then
    some ("Unclosed " ++ b.name ++ " '" ++ opening ++ "'",
      some ("Every '" ++ opening ++ "' needs a matching '" ++ closing ++ "'"))
  else if opened < closed then
    some ("Unexpected '" ++ closing ++ "' without an opening '" ++ opening ++ "'", none)
  else none

/-- What is wrong with the first character that could not be read. -/
def misplaced (first : Char) : Option Finding :=
  let shown := first.toString
  if "+*/%@".toList.contains first then
    some ("Operator '" ++ shown ++ "' must follow a list",
      some ("❌ Wrong: 1 2 " ++ shown ++ "3\n✅ Correct: (1 2)" ++ shown ++ "3"))
  else if first = ':' then
    some ("Repeat marker ':' outside of [: :] or (: :)", some "Example: [: 1 2 :3]")
  else if first.isLower && !"ivr".toList.contains first then
    some ("'" ++ shown ++ "' is not followed by a pitch",
      some "Duration characters prefix a pitch (q1) or stand alone before a space (q 1 2)")
  else none

/-- The start of the unread text: fifty characters, and dots if there are more. -/
def preview (unread : List Char) : String :=
  if 50 < unread.length then String.ofList (unread.take 50) ++ "..." else String.ofList unread

/-- What is wrong with a text of which a part could not be read. -/
def explain (input unread : List Char) : Finding :=
  ((brackets.findSome? (unbalanced input)).or (unread.head?.bind misplaced)).getD
    ("Could not parse: '" ++ preview unread ++ "'", none)

/-- Locate where reading stopped and explain it. -/
def ofUnread (input unread : List Char) : Diagnosis :=
  let (line, column, sourceLine) := locate (byteLength input - byteLength unread) input
  let (message, hint) := explain input (trim unread)
  { line, column, message, hint, sourceLine := String.ofList sourceLine }

/-! ### Common mistakes -/

/-- Round brackets that do not balance within a line. -/
def bracketWarning (number : Nat) (line : List Char) : Option String :=
  let opened := line.count '('
  let closed := line.count ')'
  if opened = closed then none
  else some ("Line " ++ toString number ++ ": " ++ toString opened ++ " '(' but " ++ toString closed ++ " ')'")

/-- A repeat that is opened in a line and not closed after it. -/
def repeatWarning (number : Nat) (line : List Char) : Option String :=
  let bodies := (splitAtPair '[' ':' line).drop 1
  if bodies.all fun body => body.contains ':' && body.contains ']' then none
  else some ("Line " ++ toString number ++ ": '[:' repeat is never closed")

def lineWarnings (number : Nat) (line : List Char) : List String :=
  let trimmed := trim line
  (bracketWarning number trimmed).toList ++ (repeatWarning number trimmed).toList

/-- The warnings about the lines of a text, numbered from `number` on. -/
def warningsFrom : Nat → List (List Char) → List String
  | _, [] => []
  | number, line :: more => lineWarnings number line ++ warningsFrom (number + 1) more

def warnings (input : String) : List String := warningsFrom 1 (lines input.toList)

end Diagnosis

end NumberedMelody
