/-
  NumberedMelody/Tree/Operator.lean
  =================================
  **Operators between lists.**  Five combine degrees, two pick by index, and
  one interleaves.
-/

namespace NumberedMelody

/-- Operators that combine two degrees into one. -/
inductive Arithmetic where
  | add
  | subtract
  | multiply
  | divide
  | modulo
  deriving Repr, DecidableEq, Inhabited

/-- The name of an operator in messages. -/
def Arithmetic.word : Arithmetic → String
  | .add => "Add"
  | .subtract => "Subtract"
  | .multiply => "Multiply"
  | .divide => "Divide"
  | .modulo => "Modulo"

/-- Operators between two lists. -/
inductive ListOperator where
  | arithmetic (op : Arithmetic)
  /-- Pick chord tones by index. -/
  | vertical
  /-- Pick list elements by index. -/
  | horizontal
  /-- Interleave, cycling the shorter list. -/
  | zip
  deriving Repr, DecidableEq, Inhabited

namespace ListOperator

/-- The operator that a single character writes. -/
def ofSymbol? (c : Char) : Option ListOperator :=
  match c with
  | '+' => some (.arithmetic .add)
  | '-' => some (.arithmetic .subtract)
  | '*' => some (.arithmetic .multiply)
  | '/' => some (.arithmetic .divide)
  | '%' => some (.arithmetic .modulo)
  | '@' => some .vertical
  | '#' => some .horizontal
  | _ => none

def symbol : ListOperator → String
  | .arithmetic .add => "+"
  | .arithmetic .subtract => "-"
  | .arithmetic .multiply => "*"
  | .arithmetic .divide => "/"
  | .arithmetic .modulo => "%"
  | .vertical => "@"
  | .horizontal => "#"
  | .zip => "<>"

end ListOperator

end NumberedMelody
