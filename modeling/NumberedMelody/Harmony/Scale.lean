/-
  NumberedMelody/Harmony/Scale.lean
  =================================
  **Scales.**  A scale is the list of its steps, in semitones, from each
  degree to the next; the steps add up to the span of its octave.  Scales are
  named, given by their steps, or given by steps in cents.
-/
import NumberedMelody.Quantity

namespace NumberedMelody

/-- A scale as it is written in options. -/
inductive Scale where
  | named (name : String)
  | steps (semitones : List Float)
  | cents (hundredths : List Float)
  deriving Repr, BEq, Inhabited

namespace Scale

/-- The named scales by folded name. -/
def table : List (String × List Nat) :=
  [ ("chromatic", [1, 1, 1, 1, 1, 1, 1, 1, 1, 1, 1, 1]),
    -- church modes
    ("ionian", [2, 2, 1, 2, 2, 2, 1]),
    ("major", [2, 2, 1, 2, 2, 2, 1]),
    ("dorian", [2, 1, 2, 2, 2, 1, 2]),
    ("phrygian", [1, 2, 2, 2, 1, 2, 2]),
    ("lydian", [2, 2, 2, 1, 2, 2, 1]),
    ("mixolydian", [2, 2, 1, 2, 2, 1, 2]),
    ("aeolian", [2, 1, 2, 2, 1, 2, 2]),
    ("minor", [2, 1, 2, 2, 1, 2, 2]),
    ("locrian", [1, 2, 2, 1, 2, 2, 2]),
    -- variants of minor and major
    ("harmonicminor", [2, 1, 2, 2, 1, 3, 1]),
    ("melodicminor", [2, 1, 2, 2, 2, 2, 1]),
    ("harmonicmajor", [2, 2, 1, 2, 1, 3, 1]),
    -- five and six tones
    ("majorpentatonic", [2, 2, 3, 2, 3]),
    ("pentatonic", [2, 2, 3, 2, 3]),
    ("minorpentatonic", [3, 2, 2, 3, 2]),
    ("blues", [3, 2, 1, 1, 3, 2]),
    -- symmetric
    ("wholetone", [2, 2, 2, 2, 2, 2]),
    ("diminished", [2, 1, 2, 1, 2, 1, 2, 1]),
    ("augmented", [3, 1, 3, 1, 3, 1]),
    -- others
    ("hirajoshi", [2, 1, 4, 1, 4]),
    ("kumoi", [2, 1, 4, 2, 3]),
    ("iwato", [1, 4, 1, 4, 2]),
    ("pelog", [1, 2, 4, 1, 4]),
    ("egyptian", [2, 3, 2, 3, 2]),
    ("spanish", [1, 3, 1, 2, 1, 2, 2]),
    ("phrygiandominant", [1, 3, 1, 2, 1, 2, 2]),
    ("bartok", [2, 2, 1, 2, 1, 2, 2]),
    ("romanian", [2, 1, 3, 1, 2, 1, 2]),
    ("enigmatic", [1, 3, 2, 2, 2, 1, 1]),
    ("hungarianminor", [2, 1, 3, 1, 1, 3, 1]),
    ("neapolitanmajor", [1, 2, 2, 2, 2, 2, 1]),
    ("neapolitanminor", [1, 2, 2, 2, 1, 3, 1]),
    ("persian", [1, 3, 1, 1, 2, 3, 1]),
    ("prometheus", [2, 2, 2, 3, 1, 2]) ]

/-- The scale that stands in for an absent one or an unknown name. -/
def ionian : String := "Ionian"

/-- Fold the case of a letter.  Besides the capitals, the kelvin sign is the
    one character whose small form is an ASCII letter; all other characters
    occur in no name of the table. -/
def foldCase (c : Char) : Char := if c.toNat = 0x212A then 'k' else c.toLower

/-- The name under which a scale is looked up: case and separators do not count. -/
def foldName (name : String) : String :=
  String.ofList ((name.toList.filter fun c => c != ' ' && c != '_' && c != '-').map foldCase)

/-- The steps of a named scale. -/
def lookup (name : String) : Option (List Nat) := table.lookup (foldName name)

/-- Steps of a scale without any: twelve semitones. -/
def orChromatic (steps : List Float) : List Float :=
  if steps.isEmpty then List.replicate 12 1.0 else steps

/-- The steps in semitones; never empty. -/
def intervals (scale : Scale) : List Float :=
  orChromatic <| match scale with
    | .named name => (((lookup name).or (lookup ionian)).getD []).map Float.ofNat
    | .steps semitones => semitones
    | .cents hundredths => hundredths.map (· / 100.0)

/-- The number of degrees in an octave of the scale. -/
def size (scale : Scale) : Nat := scale.intervals.length

/-- The semitones of an octave of the scale. -/
def span (scale : Scale) : Float := Quantity.sum scale.intervals

/-- The chromatic scale under its plain name. -/
def isChromatic : Scale → Bool
  | .named name => name.toList.map Char.toLower == "chromatic".toList
  | _ => false

end Scale

end NumberedMelody
