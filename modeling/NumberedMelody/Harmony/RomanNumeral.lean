/-
  NumberedMelody/Harmony/RomanNumeral.lean
  ========================================
  **Roman numerals.**  Degrees of a key are written `i` to `vii`; a smaller
  symbol before a greater one is subtracted.
-/

namespace NumberedMelody.Harmony

/-- The value of a roman symbol in either case. -/
def romanSymbol (c : Char) : Option Int :=
  match c.toLower with
  | 'i' => some 1
  | 'v' => some 5
  | 'x' => some 10
  | _ => none

/-- The total of the symbols, a smaller one before a greater one subtracted. -/
def romanTotal : List Int → Int
  | [] => 0
  | [value] => value
  | value :: next :: rest => (if value < next then -value else value) + romanTotal (next :: rest)

/-- The value of a numeral; an empty text or one with other symbols has none. -/
def romanValue? (numeral : String) : Option Int :=
  if numeral.isEmpty then none else (numeral.toList.mapM romanSymbol).map romanTotal

end NumberedMelody.Harmony
