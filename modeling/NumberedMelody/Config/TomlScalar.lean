/-
  NumberedMelody/Config/TomlScalar.lean
  =====================================
  **Scalars of TOML documents:** strings of four kinds, integers in four
  bases, floats, truth values, dates and times.
-/
import NumberedMelody.Config.TomlMoment

namespace NumberedMelody.Toml

open Reader

/-! ### Strings -/

/-- A character that may stand unescaped: a tab, or no control character. -/
def isPlain (c : Char) : Bool := c = '\t' || (32 ≤ c.toNat && c.toNat != 127)

def lineEnd : Reader Unit := firstOf [exactly ['\n'], exactly ['\r', '\n']]

def escape : Reader Char := do
  let _ ← char '\\'
  firstOf
    [mapSome Json.charOf? do
        let _ ← char 'u'
        Json.hexDigits 4,
      mapSome Json.charOf? do
        let _ ← char 'U'
        Json.hexDigits 8,
      mapSome (fun c => if c = '/' then none else Json.shortEscape c) (satisfy fun _ => true)]

def basicString : Reader String :=
  String.ofList <$> between '"' '"' (many (firstOf [satisfy fun c => c != '"' && c != '\\' && isPlain c, escape]))

def literalString : Reader String :=
  String.ofList <$> between '\'' '\'' (many (satisfy fun c => c != '\'' && isPlain c))

/-- A line end inside a string. -/
def innerLineEnd : Reader (List Char) := (fun _ => ['\n']) <$> lineEnd

/-- A backslash at the end of a line takes the blanks up to the next character. -/
def lineContinuation : Reader (List Char) := do
  let _ ← char '\\'
  let _ ← many (oneOf " \t")
  lineEnd
  let _ ← many (firstOf [(fun _ => ()) <$> oneOf " \t", lineEnd])
  return []

/-- One or two quotation marks that do not close a string of several lines. -/
def innerQuotes (quote : Char) : Reader (List Char) := do
  let quotes ← run1 (· == quote)
  fun text =>
    if quotes.length < 3 then some (quotes, text) else none

/-- The closing signs of a string of several lines, with up to two quotation
    marks in front of them that belong to the string. -/
def closingQuotes (quote : Char) : Reader (List Char) :=
  mapSome (fun quotes => if 3 ≤ quotes.length ∧ quotes.length ≤ 5 then some (quotes.drop 3) else none)
    (run1 (· == quote))

/-- A string of several lines between tripled signs. -/
def multiline (quote : Char) (part : Reader (List Char)) : Reader String := do
  exactly [quote, quote, quote]
  let _ ← optional lineEnd
  let parts ← many (firstOf [innerLineEnd, part, innerQuotes quote])
  let last ← closingQuotes quote
  return String.ofList (parts.flatten ++ last)

/-- A string of several lines in quotation marks. -/
def multilineBasic : Reader String :=
  multiline '"' <| firstOf
    [(fun c => [c]) <$> satisfy fun c => c != '"' && c != '\\' && isPlain c,
      lineContinuation,
      (fun c => [c]) <$> escape]

/-- A string of several lines in apostrophes. -/
def multilineLiteral : Reader String :=
  multiline '\'' ((fun c => [c]) <$> satisfy fun c => c != '\'' && isPlain c)

def string : Reader String := firstOf [multilineBasic, multilineLiteral, basicString, literalString]

/-! ### Numbers and truth values -/

def underscoresFit (isDigit : Char → Bool) : List Char → Bool
  | a :: '_' :: b :: rest => isDigit a && isDigit b && underscoresFit isDigit (b :: rest)
  | a :: rest => a != '_' && underscoresFit isDigit rest
  | [] => true

/-- Digits of a base without their underscores. -/
def digitsOf (isDigit : Char → Bool) (text : List Char) : Option (List Char) :=
  let digits := text.filter (· != '_')
  if underscoresFit isDigit text && !digits.isEmpty && digits.all isDigit then some digits else none

/-- The value of digits of a base. -/
def valueIn (base : Nat) (digits : List Char) : Nat :=
  digits.foldl (fun n c => n * base + (Json.hexValue c).getD 0) 0

def integerOf (value : Int) : Option Document :=
  if -9223372036854775808 ≤ value ∧ value ≤ 9223372036854775807 then some (.integer value) else none

/-- A digit of a base up to sixteen. -/
def isDigitIn (base : Nat) (c : Char) : Bool := ((Json.hexValue c).map fun value => decide (value < base)) == some true

/-- An unsigned integer in a base other than ten. -/
def basedInteger (base : Nat) (text : List Char) : Option Document :=
  (digitsOf (isDigitIn base) text).bind fun digits => integerOf (valueIn base digits)

/-- A decimal integer or a float.  A float beyond the largest double may only
    be negative. -/
def decimalNumber (text : List Char) : Option Document :=
  let (negative, unsigned) := Decimal.sign text
  let (n, rest) := Decimal.Numeral.scan (unsigned.filter (· != '_'))
  if !underscoresFit Char.isDigit unsigned || !rest.isEmpty || !n.isPlain then none
  else if n.isInteger then
    let magnitude : Int := Decimal.digitsValue n.whole
    integerOf (if negative then -magnitude else magnitude)
  else if negative then some (.number (-n.toFloat))
  else if n.toFloat.isInf then none
  else some (.number n.toFloat)

/-- A special value with an optional sign. -/
def specialNumber (text : List Char) : Option Document :=
  let (negative, unsigned) := Decimal.sign text
  let magnitude : Option Float :=
    if unsigned == "inf".toList then some (1.0 / 0.0)
    else if unsigned == "nan".toList then some (0.0 / 0.0)
    else none
  magnitude.map fun x => .number (if negative then -x else x)

/-- What an unquoted run of characters stands for. -/
def unquoted (text : List Char) : Option Document :=
  match text with
  | '0' :: 'x' :: digits => basedInteger 16 digits
  | '0' :: 'o' :: digits => basedInteger 8 digits
  | '0' :: 'b' :: digits => basedInteger 2 digits
  | _ =>
    if text == "true".toList then some (.bool true)
    else if text == "false".toList then some (.bool false)
    else (specialNumber text).or (decimalNumber text)

/-- A string, a date or a time, a number or a truth value. -/
def scalar : Reader Document :=
  firstOf
    [.text <$> string,
      (fun (written, _) => .moment written) <$> consumed moment,
      mapSome unquoted (run1 fun c => c.isAlphanum || c = '+' || c = '-' || c = '.' || c = '_')]

end NumberedMelody.Toml
