/-
  NumberedMelody/Text/Blank.lean
  ==============================
  **Blank characters.**  Names and typed lines are trimmed of every character
  with the White_Space property; the notation itself separates items by the
  four blanks of a keyboard only.
-/

namespace NumberedMelody.Text

/-- The characters with the White_Space property, as ranges of code points. -/
def blankRanges : List (Nat × Nat) :=
  [(0x09, 0x0D), (0x20, 0x20), (0x85, 0x85), (0xA0, 0xA0), (0x1680, 0x1680), (0x2000, 0x200A),
    (0x2028, 0x2029), (0x202F, 0x202F), (0x205F, 0x205F), (0x3000, 0x3000)]

/-- The character is white space. -/
def isBlank (c : Char) : Bool :=
  blankRanges.any fun (first, last) => first ≤ c.toNat && c.toNat ≤ last

/-- Space, tab, carriage return or line feed: what separates items of a pattern. -/
def isSeparator (c : Char) : Bool := c == ' ' || c == '\t' || c == '\r' || c == '\n'

def trim (text : List Char) : List Char :=
  ((text.dropWhile isBlank).reverse.dropWhile isBlank).reverse

/-- Drop the blanks at both ends of a string. -/
def trimmed (text : String) : String := String.ofList (trim text.toList)

end NumberedMelody.Text
