/-
  NumberedMelody/Config/Document.lean
  ===================================
  **Documents.**  Configurations are written in two formats; both are read
  into the same values, and options are taken from those.
-/

namespace NumberedMelody

/-- A value of a document. -/
inductive Document where
  | null
  | bool (value : Bool)
  | integer (value : Int)
  | number (value : Float)
  | text (value : String)
  /-- A date, a time, or a date and a time, as it is written. -/
  | moment (written : String)
  | list (items : List Document)
  /-- Entries in the order in which they are written. -/
  | table (entries : List (String × Document))
  deriving Repr, Inhabited

namespace Document

def list? : Document → Option (List Document)
  | .list items => some items
  | _ => none

def table? : Document → Option (List (String × Document))
  | .table entries => some entries
  | _ => none

def text? : Document → Option String
  | .text value => some value
  | _ => none

def bool? : Document → Option Bool
  | .bool value => some value
  | _ => none

def integerIn? (low high : Int) : Document → Option Int
  | .integer value => if low ≤ value ∧ value ≤ high then some value else none
  | _ => none

def int32? (d : Document) : Option Int := d.integerIn? (-2147483648) 2147483647

def nat64? (d : Document) : Option Nat := (d.integerIn? 0 18446744073709551615).map Int.toNat

/-- A number; an integer is one as well. -/
def number? : Document → Option Float
  | .number value => some value
  | .integer value => some (Float.ofInt value)
  | _ => none

def numbers? (d : Document) : Option (List Float) := d.list?.bind fun items => items.mapM number?

/-- The last entry of a name. -/
def get? (d : Document) (name : String) : Option Document :=
  match d with
  | .table entries => entries.reverse.lookup name
  | _ => none

/-- A name occurs at most once among some entries. -/
def isUnique (entries : List (String × Document)) (name : String) : Bool :=
  (entries.filter (·.1 == name)).length ≤ 1

end Document

end NumberedMelody
