/-
  NumberedMelody/Text/Line.lean
  =============================
  **Lines, measures and columns of text.**  A line ends at a line feed, which
  may follow a carriage return; a final line feed opens no further line.
-/

namespace NumberedMelody.Text

/-- The lines of a text without their ends. -/
def lines : List Char → List (List Char)
  | [] => []
  | '\n' :: rest => [] :: lines rest
  | '\r' :: '\n' :: rest => [] :: lines rest
  | c :: rest =>
    match lines rest with
    | [] => [[c]]
    | line :: more => (c :: line) :: more

/-- The length of a text in UTF-8 bytes. -/
def byteLength : List Char → Nat
  | [] => 0
  | c :: rest => c.utf8Size + byteLength rest

def spaces (n : Nat) : String := String.ofList (List.replicate n ' ')

/-- Fill up with spaces on the right to a width in characters. -/
def padRight (width : Nat) (text : String) : String := text ++ spaces (width - text.length)

/-- Fill up with spaces on the left to a width in characters. -/
def padLeft (width : Nat) (text : String) : String := spaces (width - text.length) ++ text

def joined (separator : String) (texts : List String) : String := String.intercalate separator texts

/-- The pieces of a text between the occurrences of a two-character mark. -/
def splitAtPair (a b : Char) : List Char → List (List Char)
  | [] => [[]]
  | [c] => [[c]]
  | c :: d :: rest =>
    if c = a ∧ d = b then [] :: splitAtPair a b rest
    else
      match splitAtPair a b (d :: rest) with
      | [] => [[c]]
      | piece :: more => (c :: piece) :: more

end NumberedMelody.Text
