/-
  NumberedMelody/Quantity.lean
  ============================
  **What times and intervals are measured in.**  A duration is divided among
  the children of a subdivision, stretched with the layers of a polyphony and
  added up over a cycle; an interval is added up along a scale.  None of these
  rules looks inside a number, so they are written once, over any `Quantity`.
  Patterns are played with `Float`; `Rat` carries the same rules without
  rounding.
-/

namespace NumberedMelody

/-- Numbers that can be added, scaled, shared out and compared. -/
class Quantity (α : Type) extends Add α, Mul α, Div α where
  /-- A whole number as a quantity. -/
  ofInt : Int → α
  /-- The total of no quantities, which leaves whatever is added to it as it is. -/
  nothing : α
  /-- At most as much; a value that is not a number is not at most any, nor is any
      at most it. -/
  isAtMost : α → α → Bool

namespace Quantity

/-- Among doubles it is the negative zero that changes no addend, for the
    positive one would make a negative zero positive. -/
instance : Quantity Float where
  ofInt := Float.ofInt
  nothing := -0.0
  isAtMost a b := a ≤ b

instance : Quantity Rat where
  ofInt n := n
  nothing := 0
  isAtMost a b := a ≤ b

variable {α : Type} [Quantity α]

def zero : α := ofInt 0

/-- The total, added from the left. -/
def sum (xs : List α) : α := xs.foldl (· + ·) nothing

/-- The greatest of some quantities, and zero if all are less than that; of
    equal ones the last. -/
def greatest (xs : List α) : α := xs.foldl (fun a b => if isAtMost a b then b else a) zero

end Quantity

end NumberedMelody
