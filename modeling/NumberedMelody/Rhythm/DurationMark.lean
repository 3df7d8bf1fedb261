/-
  NumberedMelody/Rhythm/DurationMark.lean
  =======================================
  **Duration marks.**  A letter stands for a fraction of a whole note; dots
  after it add half of what was added before.
-/

namespace NumberedMelody.Rhythm

/-- The fraction of a whole note that a letter stands for. -/
def markValue (mark : Char) : Option Float :=
  match mark with
  | 'm' => some 8.0
  | 'k' => some (10240.0 / 1920.0)
  | 'l' => some 4.0
  | 'p' => some (5120.0 / 1920.0)
  | 'd' => some 2.0
  | 'c' => some (2560.0 / 1920.0)
  | 'w' => some 1.0
  | 'y' => some (1280.0 / 1920.0)
  | 'h' => some 0.5
  | 'n' => some (640.0 / 1920.0)
  | 'q' => some 0.25
  | 'a' => some (320.0 / 1920.0)
  | 'e' => some 0.125
  | 'f' => some (160.0 / 1920.0)
  | 's' => some 0.0625
  | 'x' => some (80.0 / 1920.0)
  | 't' => some (60.0 / 1920.0)
  | 'g' => some (40.0 / 1920.0)
  | 'u' => some (30.0 / 1920.0)
  | 'j' => some (15.0 / 1920.0)
  | 'o' => some (8.0 / 1920.0)
  | 'z' => some 0.0
  | _ => none

def isMark (c : Char) : Bool := (markValue c).isSome

/-- One, halved once for every dot. -/
def halved : Nat → Float
  | 0 => 1.0
  | dots + 1 => 0.5 * halved dots

/-- The duration of a mark with dots. -/
def dottedValue (mark : Char) (dots : Nat) : Option Float :=
  (markValue mark).map (· * (2.0 - halved dots))

/-- The duration where nothing else sets one: a quarter note. -/
def quarter : Float := 0.25

end NumberedMelody.Rhythm
