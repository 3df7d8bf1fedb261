/-
  NumberedMelody/Named.lean
  =========================
  **Things kept by name.**  Bindings of external payloads and stored variables
  are finite maps from names, kept in the order of the names, so that maps
  with the same entries are the same list.
-/

namespace NumberedMelody

/-- A finite map from names, in ascending order of the names. -/
abbrev Named (α : Type) := List (String × α)

/-- Give a name a value, in place of an earlier one. -/
def Named.insert {α : Type} (name : String) (a : α) : Named α → Named α
  | [] => [(name, a)]
  | (other, b) :: rest =>
    if name = other then (name, a) :: rest
    else if name < other then (name, a) :: (other, b) :: rest
    else (other, b) :: Named.insert name a rest

end NumberedMelody
