/-
  NumberedMelody/CommandLine/Form.lean
  ====================================
  **The forms of options on the command line:** how each is written, what its
  value must be, and what it sets.  Arguments are read, and help is written,
  from these tables.
-/
import NumberedMelody.Decimal.Numeral

namespace NumberedMelody.CommandLine

/-- What the options of one level of the command line have set. -/
structure Settings where
  config : Option String := none
  key : Option String := none
  scale : Option String := none
  octave : Option Int := none
  duration : Option Float := none
  seed : Option UInt64 := none
  count : Option Nat := none
  fields : List String := []
  json : Bool := false
  deriving Repr, Inhabited

namespace Settings

/-- Settings with those of an outer level behind them. -/
def under (outer inner : Settings) : Settings :=
  { config := inner.config.or outer.config
    key := inner.key.or outer.key
    scale := inner.scale.or outer.scale
    octave := inner.octave.or outer.octave
    duration := inner.duration.or outer.duration
    seed := inner.seed.or outer.seed
    count := inner.count.or outer.count
    fields := outer.fields ++ inner.fields
    json := outer.json || inner.json }

end Settings

/-- An option as it is written. -/
structure Form where
  long : String
  short : Option Char := none
  /-- What the value is called; a flag has none. -/
  label : Option String := none
  about : String
  /-- The value may start with a hyphen. -/
  signed : Bool := false
  /-- The option may be given again. -/
  repeats : Bool := false
  /-- Settings with a value taken in, if the value is in order. -/
  take : String → Settings → Option Settings

namespace Form

def config : Form where
  long := "config"
  short := some 'c'
  label := some "CONFIG"
  about := "TOML or JSON file with default options"
  take value s := if value.isEmpty then none else some { s with config := some value }

def key : Form where
  long := "key"
  short := some 'k'
  label := some "KEY"
  about := "Key as a note name (C4, Eb3) or MIDI number"
  take value s := some { s with key := some value }

def scale : Form where
  long := "scale"
  short := some 's'
  label := some "SCALE"
  about := "Scale name (Ionian, Dorian, Chromatic, ...)"
  take value s := some { s with scale := some value }

def octave : Form where
  long := "octave"
  short := some 'o'
  label := some "OCTAVE"
  about := "Baseline octave"
  signed := true
  take value s := (Decimal.readInt32? value.toList).map fun n => { s with octave := some n }

def duration : Form where
  long := "duration"
  short := some 'd'
  label := some "DURATION"
  about := "Default duration as a fraction of a whole note"
  take value s := (Decimal.readFloat? value.toList).map fun x => { s with duration := some x }

def seed : Form where
  long := "seed"
  label := some "SEED"
  about := "Seed for random values"
  take value s := (Decimal.readNat64? value.toList).map fun n => { s with seed := some (.ofNat n) }

def count : Form where
  long := "count"
  short := some 'n'
  label := some "COUNT"
  about := "Number of events to print (continues into later cycles)"
  take value s := (Decimal.readNat64? value.toList).map fun n => { s with count := some n }

/-- Names between commas; every occurrence adds to them. -/
def fields : Form where
  long := "fields"
  short := some 'f'
  label := some "FIELDS"
  about := "Comma separated fields to print (pitch_class, note, duration, beat, octave, freq, pitch_bend)"
  repeats := true
  take value s := some { s with fields := s.fields ++ value.splitOn "," }

def json : Form where
  long := "json"
  about := "Print events as JSON"
  take _ s := some { s with json := true }

/-- The options that stand anywhere. -/
def shared : List Form := [config, key, scale, octave, duration, seed]

/-- The options of the evaluation of a pattern, as help lists them. -/
def evaluation : List Form := [config, count, fields, key, json, scale, octave, duration, seed]

def isFlag (f : Form) : Bool := f.label.isNone

end Form

end NumberedMelody.CommandLine
