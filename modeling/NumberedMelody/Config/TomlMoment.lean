/-
  NumberedMelody/Config/TomlMoment.lean
  =====================================
  **Dates and times of TOML documents.**  A date has four, two and two digits
  and is one of the calendar; a time has hours, minutes, seconds and perhaps a
  fraction; the two may stand together, with an offset behind them.  No option
  is a date or a time, so all that is kept of one is how it is written.
-/
import NumberedMelody.Config.Json

namespace NumberedMelody.Toml

open Reader

def digitsOfLength : Nat → Reader (List Char)
  | 0 => pure []
  | n + 1 => do
    let first ← satisfy Char.isDigit
    let more ← digitsOfLength n
    return first :: more

/-- A number of so many digits between two bounds. -/
def field (length low high : Nat) : Reader Nat :=
  verify (fun n => low ≤ n && n ≤ high) (Decimal.digitsValue <$> digitsOfLength length)

/-- The year has a 29th of February. -/
def isLeapYear (year : Nat) : Bool := year % 4 = 0 && (year % 100 != 0 || year % 400 = 0)

def daysIn (year month : Nat) : Nat :=
  if month = 2 then (if isLeapYear year then 29 else 28)
  else if month = 4 ∨ month = 6 ∨ month = 9 ∨ month = 11 then 30
  else 31

def date : Reader Unit := do
  let year ← field 4 0 9999
  let _ ← char '-'
  let month ← field 2 1 12
  let _ ← char '-'
  let _ ← field 2 1 (daysIn year month)
  return ()

/-- A time of day; a minute may have a leap second. -/
def time : Reader Unit := do
  let _ ← field 2 0 23
  let _ ← char ':'
  let _ ← field 2 0 59
  let _ ← char ':'
  let _ ← field 2 0 60
  let _ ← optional do
    let _ ← char '.'
    digits
  return ()

/-- The offset of a time: none at all, or hours and minutes. -/
def offset : Reader Unit :=
  firstOf
    [(fun _ => ()) <$> oneOf "Zz",
      do
        let _ ← oneOf "+-"
        let _ ← field 2 0 23
        let _ ← char ':'
        let _ ← field 2 0 59
        return ()]

/-- A date, a time, or a date and a time. -/
def moment : Reader Unit :=
  firstOf
    [do
        date
        let _ ← optional do
          let _ ← oneOf "Tt "
          time
          optional offset
        return (),
      time]

end NumberedMelody.Toml
