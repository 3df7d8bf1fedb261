/-
  NumberedMelody/Text/Quoted.lean
  ===============================
  **Strings between quotation marks.**  Event documents escape what the
  document format forbids; messages that show an argument escape what would
  not show.
-/
import NumberedMelody.Text.Blank

namespace NumberedMelody.Text

/-- The hexadecimal digits of a number, filled up with zeros to a width. -/
def hexPadded (width : Nat) (n : Nat) : String :=
  let digits := Nat.toDigits 16 n
  String.ofList (List.replicate (width - digits.length) '0' ++ digits)

/-- A character of a string in an event document. -/
def documentEscape (c : Char) : String :=
  if c = '"' then "\\\""
  else if c = '\\' then "\\\\"
  else if c = '\n' then "\\n"
  else if c = '\r' then "\\r"
  else if c = '\t' then "\\t"
  else if c.toNat = 8 then "\\b"
  else if c.toNat = 12 then "\\f"
  else if c.toNat < 32 then "\\u" ++ hexPadded 4 c.toNat
  else c.toString

/-- A string of an event document. -/
def documentQuoted (text : String) : String :=
  "\"" ++ String.join (text.toList.map documentEscape) ++ "\""

/-- Characters that would not show or would join their neighbour: controls,
    marks of direction and of joining, combining marks, and private ones. -/
def unseenRanges : List (Nat × Nat) :=
  [(0x00, 0x1F), (0x7F, 0x9F), (0xAD, 0xAD), (0x300, 0x36F), (0x483, 0x489), (0x591, 0x5BD), (0x600, 0x605),
    (0x610, 0x61A), (0x61C, 0x61C), (0x64B, 0x65F), (0x6DD, 0x6DD), (0x70F, 0x70F), (0x180B, 0x180F),
    (0x1AB0, 0x1ACE), (0x1DC0, 0x1DFF), (0x200B, 0x200F), (0x202A, 0x202E), (0x2060, 0x206F), (0x20D0, 0x20F0),
    (0xE000, 0xF8FF), (0xFE00, 0xFE0F), (0xFE20, 0xFE2F), (0xFEFF, 0xFEFF), (0xFFF0, 0xFFFB), (0xFFFE, 0xFFFF),
    (0xE0000, 0x10FFFF)]

/-- The character does not show by itself; of the blanks only the space does. -/
def isUnseen (c : Char) : Bool :=
  (isBlank c && c != ' ') || unseenRanges.any fun (first, last) => first ≤ c.toNat && c.toNat ≤ last

/-- A character of a quoted argument in a message. -/
def argumentEscape (c : Char) : String :=
  if c = '"' then "\\\""
  else if c = '\\' then "\\\\"
  else if c = '\n' then "\\n"
  else if c = '\r' then "\\r"
  else if c = '\t' then "\\t"
  else if c.toNat = 0 then "\\0"
  else if isUnseen c then "\\u\x7b" ++ hexPadded 1 c.toNat ++ "\x7d"
  else c.toString

/-- An argument quoted in a message. -/
def argumentQuoted (text : String) : String :=
  "\"" ++ String.join (text.toList.map argumentEscape) ++ "\""

end NumberedMelody.Text
