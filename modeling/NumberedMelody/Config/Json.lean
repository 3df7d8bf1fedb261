/-
  NumberedMelody/Config/Json.lean
  ===============================
  **Reading JSON documents.**  An integer that fits in 64 bits stays one; any
  other number is read as a double, by scaling, and has to be finite.
  Surrogates have to come in pairs.  Entries that nobody asks for are skipped:
  they have to be well formed, but their numbers may be of any size, their
  surrogates may stand alone and their nesting has no limit.
-/
import NumberedMelody.Config.Document
import NumberedMelody.Decimal.Scaled
import NumberedMelody.Grammar.Reader

namespace NumberedMelody.Json

open Reader

def blanks : Reader Unit := fun text => some ((), text.dropWhile Text.isSeparator)

/-- A token and the blanks after it. -/
def token {α : Type} (p : Reader α) : Reader α := do
  let a ← p
  blanks
  return a

/-! ### Strings -/

def hexValue (c : Char) : Option Nat :=
  if '0' ≤ c ∧ c ≤ '9' then some (c.toNat - '0'.toNat)
  else if 'a' ≤ c ∧ c ≤ 'f' then some (c.toNat - 'a'.toNat + 10)
  else if 'A' ≤ c ∧ c ≤ 'F' then some (c.toNat - 'A'.toNat + 10)
  else none

def hexDigits : Nat → Reader Nat
  | 0 => pure 0
  | n + 1 => do
    let high ← mapSome hexValue (satisfy fun _ => true)
    let rest ← hexDigits n
    return high * Nat.pow 16 n + rest

/-- A character by its code point, if it is one. -/
def charOf? (code : Nat) : Option Char :=
  if code < 0xD800 ∨ (0xDFFF < code ∧ code < 0x110000) then some (Char.ofNat code) else none

/-- An escaped code point: four digits, or two surrogates of four digits each. -/
def escapedCode : Reader Char :=
  mapSome charOf? do
    let first ← hexDigits 4
    if 0xD800 ≤ first ∧ first < 0xDC00 then
      exactly ['\\', 'u']
      let second ← verify (fun n => 0xDC00 ≤ n && n < 0xE000) (hexDigits 4)
      return 0x10000 + (first - 0xD800) * 0x400 + (second - 0xDC00)
    else return first

/-- What stands for a character after a backslash. -/
def shortEscape (c : Char) : Option Char :=
  match c with
  | '"' => some '"'
  | '\\' => some '\\'
  | '/' => some '/'
  | 'b' => some (Char.ofNat 8)
  | 'f' => some (Char.ofNat 12)
  | 'n' => some '\n'
  | 'r' => some '\r'
  | 't' => some '\t'
  | _ => none

def stringChar : Reader Char :=
  firstOf
    [satisfy fun c => c != '"' && c != '\\' && 32 ≤ c.toNat,
      do
        let _ ← char '\\'
        firstOf [do let _ ← char 'u'; escapedCode, mapSome shortEscape (satisfy fun _ => true)]]

def string : Reader String := String.ofList <$> between '"' '"' (many stringChar)

/-! ### Numbers -/

/-- The value of a numeral with its sign. -/
def numeralValue (negative : Bool) (n : Decimal.Numeral) : Option Document :=
  if !n.isPlain then none
  else
    let magnitude := Decimal.digitsValue n.whole
    if n.isInteger && negative && 0 < magnitude && magnitude ≤ 9223372036854775808 then
      some (.integer (-(magnitude : Int)))
    else if n.isInteger && !negative && magnitude ≤ 18446744073709551615 then some (.integer magnitude)
    else n.scaled?.map fun x => .number (if negative then -x else x)

def number : Reader Document := do
  let minus ← optional (char '-')
  mapSome (numeralValue minus.isSome) fun text => some (Decimal.Numeral.scan text)

/-! ### Values -/

/-- Items with commas between them, between two signs. -/
def separated {α : Type} (opening closing : Char) (p : Reader α) : Reader (List α) := do
  let _ ← token (char opening)
  let items ← optional do
    let first ← p
    let more ← many do
      let _ ← token (char ',')
      p
    return first :: more
  let _ ← char closing
  return items.getD []

/-- A name, a colon and a value. -/
def entry {α : Type} (name : Reader String) (value : String → Reader α) : Reader (String × α) := do
  let name ← token name
  let _ ← token (char ':')
  let value ← token (value name)
  return (name, value)

def entries {α : Type} (name : Reader String) (value : String → Reader α) : Reader (List (String × α)) :=
  separated '\x7b' '\x7d' (entry name value)

def word : Reader Document :=
  firstOf
    [(fun _ => .null) <$> exactly "null".toList,
      (fun _ => .bool true) <$> exactly "true".toList,
      (fun _ => .bool false) <$> exactly "false".toList]

def scalar : Reader Document := firstOf [word, .text <$> string, number]

/-- A value with lists and tables in it to a depth of nesting. -/
def valueTo : Nat → Reader Document
  | 0 => scalar
  | depth + 1 =>
    firstOf
      [scalar,
        .list <$> separated '[' ']' (token (valueTo depth)),
        .table <$> entries string fun _ => valueTo depth]

/-- Lists and tables may be nested this deep. -/
def depthLimit : Nat := 127

/-! ### Skipping -/

/-- A string of which only the escapes are checked, each by itself. -/
def skippedString : Reader Unit :=
  (fun _ => ()) <$> between '"' '"' (many (firstOf
    [(fun _ => ()) <$> stringChar,
      do
        exactly ['\\', 'u']
        let _ ← hexDigits 4
        return ()]))

/-- A number of any size. -/
def skippedNumber : Reader Unit := do
  let _ ← optional (char '-')
  mapSome (fun n => if n.isPlain then some () else none) fun text => some (Decimal.Numeral.scan text)

/-- A value that is not held; each level of nesting takes a character, so the
    length of the text bounds them. -/
def skippedTo : Nat → List Char → Option (Unit × List Char)
  | 0, _ => none
  | depth + 1, text =>
    firstOf
      [(fun _ => ()) <$> word, skippedString, skippedNumber,
        (fun _ => ()) <$> separated '[' ']' (token (skippedTo depth)),
        (fun _ => ()) <$> entries ((fun _ => "") <$> skippedString) fun _ => skippedTo depth]
      text

/-- A value that is not held. -/
def skipped : Reader Unit := fun text => skippedTo text.length text

/-! ### Documents -/

/-- A table of which only the entries of some names are held. -/
def tableWith (isHeld : String → Bool) : Reader Document := do
  let all ← entries string fun name =>
    if isHeld name then some <$> valueTo (depthLimit - 1) else (fun _ => none) <$> skipped
  return .table (all.filterMap fun (name, value) => value.map (name, ·))

/-- A document; if it is a table, only the entries of some names are held. -/
def readWith? (isHeld : String → Bool) (text : String) : Option Document :=
  let document : Reader Document := do
    blanks
    let value ← token (firstOf [tableWith isHeld, valueTo depthLimit])
    atEnd
    return value
  (document text.toList).map (·.1)

def read? (text : String) : Option Document := readWith? (fun _ => true) text

end NumberedMelody.Json
