/-
  NumberedMelody/Melody.lean
  ==========================
  **Melodies.**  A melody owns the tree of a pattern, the options that every
  cycle starts from, and the events of the current cycle.  An index past the
  end of a cycle evaluates the tree again, so random values are drawn anew and
  cycles advance.  Every operation hands back the melody that it leaves, also
  when it fails.
-/
import NumberedMelody.Evaluation.Realize
import NumberedMelody.Event.Field
import NumberedMelody.Grammar.Item

namespace NumberedMelody

open NumberedMelody.Random (Source)

/-- A pattern that is being played. -/
structure Melody where
  text : String
  nodes : List Node
  start : Options := {}
  source : Source := .ofSeed 0
  /-- The events of the current cycle. -/
  events : List Event := []
  cycle : Nat := 0
  cursor : Nat := 0
  initialized : Bool := false
  deriving Inhabited

namespace Melody

/-- A melody over nodes that have been read already. -/
def ofNodes (text : String) (nodes : List Node) : Melody := { text, nodes }

def read (text : String) : Except Failure Melody := (readPattern text).map (ofNodes text)

/-! ### Cycles -/

/-- Evaluate the tree again from the start options.  A failure leaves the
    events of the current cycle. -/
def reEvaluate (m : Melody) : Melody × Except Failure Unit :=
  let run := evaluate m.nodes (.ofOptions m.start) m.source
  let m := { m with nodes := run.tree, source := run.source }
  match run.result with
  | .ok events => ({ m with events, cursor := 0 }, .ok ())
  | .error failure => (m, .error failure)

/-- Evaluate the first cycle.  Without a seed the random stream is that of zero. -/
def init (m : Melody) (options : Options) : Melody × Except Failure Unit :=
  let started :=
    { m with source := .ofSeed (options.seed.getD 0), start := options, cycle := 0, cursor := 0 }
  match started.reEvaluate with
  | (m, .ok ()) => ({ m with initialized := true }, .ok ())
  | failed => failed

/-- The number of events in the current cycle, if there are any. -/
def cycleLength (m : Melody) : Except Failure Nat :=
  if m.events.isEmpty then .error (.emptyPattern m.text) else .ok m.events.length

/-- The melody in a cycle; a cycle other than the current one is evaluated first. -/
def inCycle (m : Melody) (cycle : Nat) : Melody × Except Failure Unit :=
  if cycle = m.cycle then (m, .ok ()) else { m with cycle }.reEvaluate

/-- The event at an index within the current cycle, wrapping around. -/
def eventAt (m : Melody) (index : Nat) : Except Failure Event :=
  match m.events[index % m.events.length]? with
  | some event => .ok event
  | none => .error (.emptyPattern m.text)

/-- The event at an index that counts on across cycles. -/
def get (m : Melody) (index : Nat) : Melody × Except Failure Event :=
  if !m.initialized then (m, .error .uninitialized)
  else
    match m.cycleLength with
    | .error failure => (m, .error failure)
    | .ok length =>
      match m.inCycle (index / length) with
      | (m, .error failure) => (m, .error failure)
      | (m, .ok ()) => (m, m.eventAt index)

/-! ### Reading many events -/

/-- Events from an index on, up to the first failure. -/
def takeFrom (m : Melody) (index : Nat) : Nat → Melody × Except Failure (List Event)
  | 0 => (m, .ok [])
  | n + 1 =>
    match m.get index with
    | (m, .error failure) => (m, .error failure)
    | (m, .ok event) =>
      let (m, others) := m.takeFrom (index + 1) n
      (m, others.map (event :: ·))

/-- The first events of an endless loop. -/
def take (m : Melody) (n : Nat) : Melody × Except Failure (List Event) := m.takeFrom 0 n

/-- What an endless loop yields from an index on, failures among it. -/
def loopFrom (m : Melody) (index : Nat) : Nat → Melody × List (Except Failure Event)
  | 0 => (m, [])
  | n + 1 =>
    let (m, first) := m.get index
    let (m, others) := m.loopFrom (index + 1) n
    (m, first :: others)

/-- What an endless loop yields first, failures among it. -/
def loop (m : Melody) (n : Nat) : Melody × List (Except Failure Event) := m.loopFrom 0 n

/-- The first events of an endless loop, one row per field. -/
def collect (m : Melody) (n : Nat) (fields : List Field) : Melody × Except Failure (List (List Value)) :=
  let (m, events) := m.take n
  (m, events.map fun events => fields.map fun field => events.map (Event.field field))

/-- The next events of the current cycle, without evaluating anything. -/
def walk (m : Melody) (n : Nat) : Melody × List Event :=
  let events := (m.events.drop m.cursor).take n
  ({ m with cursor := m.cursor + events.length }, events)

/-! ### Views of the current cycle -/

/-- A field of the events that have a place in a melody. -/
def tonal (m : Melody) (field : Field) : List Value := (m.events.filter Event.isTonal).map (Event.field field)

def durations (m : Melody) : List Float := m.events.filterMap Event.duration

def beats (m : Melody) : List Float := m.events.filterMap Event.beat

/-- Degree and duration of every single pitch. -/
def pairs (m : Melody) : List (Int × Float) :=
  (m.events.filterMap Event.pitch?).map fun p => (p.degree, p.duration.getD 0.0)

def totalDuration (m : Melody) : Float := Quantity.sum m.durations

def totalBeats (m : Melody) : Float := Quantity.sum m.beats

end Melody

/-- Read a pattern and evaluate its first cycle. -/
def play (text : String) (options : Options) : Except Failure Melody := do
  let melody ← Melody.read text
  match melody.init options with
  | (melody, .ok ()) => .ok melody
  | (_, .error failure) => .error failure

end NumberedMelody
