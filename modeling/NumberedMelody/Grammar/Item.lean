/-
  NumberedMelody/Grammar/Item.lean
  ================================
  **The items of a pattern.**  Every rule that contains items takes the reader
  of the items inside as an argument; closing the rules over themselves, one
  level of nesting at a time, gives the grammar.  A pattern is read if items
  cover it to its end, and is diagnosed at the first character they do not.
-/
import NumberedMelody.Expr.Grammar
import NumberedMelody.Grammar.Lexeme

namespace NumberedMelody.Grammar

open Reader

/-! ### Items without items inside -/

def blank : Reader Node := (fun (text, _) => .blank text) <$> consumed separators

def bar : Reader Node := (fun (text, _) => .bar text) <$> consumed (char '|')

/-- A control item: a duration or an octave that stands alone. -/
def control : Reader Node := do
  let (text, change) ← consumed do
    let change ← firstOf
      [Change.duration <$> durationMarks, Change.duration <$> decimal, Change.duration <$> escapedDecimal,
        Change.octaveAdd <$> octaveMarks, Change.octave <$> escapedOctave]
    boundary
    return change
  return .change text change

/-- Two tones or more, with an optional duration and inversions. -/
def chord : Reader Node := do
  let (text, duration, tones, inversions) ← consumed do
    let duration ← optional durationAhead
    let first ← tone
    let others ← many1 tone
    let inversions ← optional inversion
    return (duration, first :: others, inversions)
  return .event (.chord { text, overrides := .ofDuration duration, tones, inversions })

/-- One tone with an optional duration, which adds to a duration among its marks. -/
def pitch : Reader Node := do
  let (text, duration, tone) ← consumed do
    let duration ← optional durationAhead
    let tone ← tone
    return (duration, tone)
  let own := match duration with
    | some d => some (tone.overrides.duration.getD 0.0 + d)
    | none => tone.overrides.duration
  return .event (.pitch { tone with text, overrides := { tone.overrides with duration := own } })

def rest : Reader Node := do
  let (text, duration) ← consumed do
    let duration ← optional durationAhead
    let _ ← char 'r'
    return duration
  return .event (.rest { text, overrides := .ofDuration duration })

def randomPitch : Reader Node := do
  let (text, overrides) ← consumed do
    let overrides ← marks
    let _ ← char '?'
    return overrides
  return .randomPitch text overrides

/-- Two bounds in round brackets. -/
def randomInteger : Reader Node := do
  let (text, overrides, a, b) ← consumed do
    let overrides ← marks
    let (a, b) ← between '(' ')' do
      let a ← integer
      let _ ← char ','
      let b ← integer
      return (a, b)
    return (overrides, a, b)
  return .ofBounds text overrides a b

/-- Two degrees with two points between them. -/
def range : Reader Node := do
  let (text, overrides, first, last) ← consumed do
    let overrides ← marks
    let first ← integer
    exactly ['.', '.']
    let last ← integer
    return (overrides, first, last)
  return .range text overrides first last

/-- Roman symbols, with an optional duration, chord name and inversions. -/
def numeral : Reader Node := do
  let (text, duration, symbols, chordName, inversions) ← consumed do
    let duration ← optional durationAhead
    let (symbols, _) ← consumed (many1 (oneOf "iv"))
    let chordName ← optional do
      let _ ← char '^'
      run1 Char.isAlphanum
    let inversions ← optional inversion
    return (duration, symbols, chordName, inversions)
  let spelled : RomanNumeral :=
    { text, overrides := .ofDuration duration, symbols, chordName := chordName.map String.ofList, inversions }
  return .numeral { numeral := spelled }

/-- An expression in a block, with an optional duration. -/
def expressionItem : Reader Node := do
  let (text, duration, expr) ← consumed <| firstOf
    [do
        let duration ← durationAhead
        let expr ← Expr.read
        return (some duration, expr),
      (fun expr => (none, expr)) <$> Expr.read]
  return .expression text (.ofDuration duration) expr

/-- Expressions in braces. -/
def block : Reader Node := do
  let (text, values) ← consumed (between '\x7b' '\x7d' (many (firstOf [blank, expressionItem])))
  return .sequence text {} false values

def variableUse : Reader Node :=
  (fun name => .variable name.toString name.toString) <$> variableName

/-- Two variables or more without anything between them. -/
def together : Reader Node := do
  let (text, first, more) ← consumed do
    let first ← variableName
    let more ← many1 variableName
    return (first, more)
  return .together text ((first :: more).map Char.toString)

/-! ### Items with items inside -/

/-- Items in round brackets, with marks in front. -/
def list (item : Reader Node) : Reader Node := do
  let (text, overrides, values) ← consumed do
    let overrides ← marks
    let values ← between '(' ')' (many item)
    return (overrides, values)
  return .sequence text overrides true values

/-- Items in square brackets, with marks in front. -/
def subdivision (item : Reader Node) : Reader Node := do
  let (text, overrides, values) ← consumed do
    let overrides ← marks
    let values ← between '[' ']' (many item)
    return (overrides, values)
  return .subdivision text overrides values

/-- Items in angle brackets. -/
def cycle (item : Reader Node) : Reader Node := do
  let (text, values) ← consumed (between '<' '>' (many item))
  return .ofCycle text values 0

/-- What may follow an operator. -/
def operand (item : Reader Node) : Reader Node :=
  firstOf [randomInteger, list item, subdivision item, cycle item, range, randomPitch, chord, pitch]

/-- An operation on the list before it. -/
def operation (item : Reader Node) : Reader (Operation Node) :=
  firstOf
    [do
        exactly ['<', '>']
        let right ← operand item
        return .binary .zip (some right),
      Operation.map <$> between '\x7b' '\x7d' Expr.read,
      do
        let op ← mapSome ListOperator.ofSymbol? (oneOf "+-*/%@#")
        let right ← operand item
        return .binary op (some right)]

/-- The pulses, steps and rotation of a rhythm. -/
def rhythm : Reader (Nat × Nat × Int) :=
  between '<' '>' do
    let pulses ← natural
    let _ ← char ','
    let length ← natural
    let rotate ← optional do
      let _ ← char ','
      integer
    return (pulses, length, rotate.getD 0)

/-- What may follow a list. -/
inductive ListTail where
  /-- A rhythm to deal the list out over, with an optional list for the other steps. -/
  | rhythm (pulses length : Nat) (rotate : Int) (offset : Option Node)
  /-- Operations on the list, possibly none. -/
  | steps (operations : List (Operation Node))

/-- A rhythm with its optional second list, or operations. -/
def listTail (item : Reader Node) : Reader ListTail :=
  firstOf
    [do
        let (pulses, length, rotate) ← rhythm
        let offset ← optional (list item)
        return .rhythm pulses length rotate offset,
      ListTail.steps <$> many (operation item)]

/-- A list, alone or with a rhythm or operations after it. -/
def listLike (item : Reader Node) : Reader Node := do
  let (text, left, tail) ← consumed do
    let left ← list item
    let tail ← listTail item
    return (left, tail)
  return match tail with
    | .rhythm pulses length rotate offset => .euclid text pulses length rotate left offset
    | .steps [] => left
    | .steps operations => .operations text left operations

def count (item : Reader Node) : Reader Node :=
  firstOf [randomInteger, cycle item, (fun (text, value) => .integer text value) <$> consumed integer]

/-- The count of a repeat that gives none: twice. -/
def twice : Node := .integer "" 2

/-- Items between an opening sign with a colon and a colon with a closing sign. -/
def repetition (item : Reader Node) (opening closing : Char) (replayed : Bool) : Reader Node := do
  let (text, values, count) ← consumed do
    exactly [opening, ':']
    let values ← many item
    let _ ← char ':'
    let count ← optional (count item)
    let _ ← char closing
    return (values, count)
  return .repetition text replayed values (count.getD twice)

/-- A variable, a sign of assignment, and an item that is a value. -/
def assignment (item : Reader Node) : Reader Node := do
  let (text, name, sign, value) ← consumed do
    let name ← variableName
    let sign ← oneOf "=~"
    let value ← verify Node.isValue item
    return (name, sign, value)
  return .assignment text name.toString (sign == '~') value

/-- One item, given the reader of the items inside it. -/
def itemOver (item : Reader Node) : Reader Node :=
  firstOf
    [blank, bar, assignment item, together, variableUse, repetition item '[' ']' true,
      repetition item '(' ')' false, randomInteger, listLike item, subdivision item, control, block, range,
      numeral, rest, randomPitch, chord, pitch, cycle item]

/-- One item to a depth of nesting. -/
def itemTo : Nat → Reader Node
  | 0 => fail
  | depth + 1 => itemOver (itemTo depth)

/-- One item.  Every level of nesting takes a character, so the text bounds the depth. -/
def item : Reader Node := fun text => itemTo (text.length + 1) text

/-- As many items as there are. -/
def items : Reader (List Node) := many item

end NumberedMelody.Grammar

namespace NumberedMelody

/-- The nodes of a pattern, if items cover its text. -/
def readPattern (text : String) : Except Failure (List Node) :=
  match Grammar.items text.toList with
  | some (nodes, []) => .ok nodes
  | some (_, unread) => .error (.unreadable (Diagnosis.ofUnread text.toList unread))
  | none => .error (.unreadable (Diagnosis.ofUnread text.toList text.toList))

end NumberedMelody
