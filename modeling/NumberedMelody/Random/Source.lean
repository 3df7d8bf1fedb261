/-
  NumberedMelody/Random/Source.lean
  =================================
  **Random draws that can be played back.**  A repeat must sound the same on
  every pass, so draws pass through a stack of tapes.  A recording tape keeps
  what it hands on; a rewound one plays what it has kept, and asks the tapes
  around it and at last the stream only when it runs out.
-/
import NumberedMelody.Random.Stream

namespace NumberedMelody.Random

/-- A stream and how far it has been read. -/
structure Generator where
  key : StreamKey
  position : Nat
  deriving Repr, DecidableEq, Inhabited

namespace Generator

/-- The stream of a seed from its start. -/
def ofSeed (seed : UInt64) : Generator := ⟨.ofSeed seed, 0⟩

def next (g : Generator) : UInt64 × Generator := (g.key.draw g.position, { g with position := g.position + 1 })

end Generator

/-- The draws kept so far, and how many of them have been played since the
    tape was rewound. -/
structure Tape where
  draws : List UInt64
  position : Nat
  replaying : Bool
  deriving Repr, DecidableEq, Inhabited

namespace Tape

/-- A fresh tape, recording. -/
def blank : Tape := ⟨[], 0, false⟩

/-- The kept draw that is next to be played, if any. -/
def upcoming? (t : Tape) : Option UInt64 := if t.replaying then t.draws[t.position]? else none

/-- Step over a kept draw. -/
def advance (t : Tape) : Tape := { t with position := t.position + 1 }

/-- Keep a draw that came from further out. -/
def keep (t : Tape) (draw : UInt64) : Tape :=
  { t with draws := t.draws ++ [draw], position := if t.replaying then t.position + 1 else t.position }

def rewound (t : Tape) : Tape := { t with position := 0, replaying := true }

end Tape

/-- A generator inside a stack of tapes, the innermost first. -/
structure Source where
  tapes : List Tape
  generator : Generator
  deriving Repr, DecidableEq, Inhabited

/-- One draw through a stack of tapes. -/
def drawThrough : List Tape → Generator → UInt64 × List Tape × Generator
  | [], g =>
    let (draw, g) := g.next
    (draw, [], g)
  | tape :: outer, g =>
    match tape.upcoming? with
    | some draw => (draw, tape.advance :: outer, g)
    | none =>
      let (draw, outer, g) := drawThrough outer g
      (draw, tape.keep draw :: outer, g)

namespace Source

def ofSeed (seed : UInt64) : Source := ⟨[], .ofSeed seed⟩

def draw (s : Source) : UInt64 × Source :=
  let (draw, tapes, generator) := drawThrough s.tapes s.generator
  (draw, ⟨tapes, generator⟩)

def record (s : Source) : Source := { s with tapes := .blank :: s.tapes }

/-- Play the innermost tape from its start. -/
def rewind (s : Source) : Source :=
  match s.tapes with
  | [] => s
  | tape :: outer => { s with tapes := tape.rewound :: outer }

def finish (s : Source) : Source := { s with tapes := s.tapes.tail }

end Source

/-- The integer between two bounds, in either order, that a raw draw stands for. -/
def between (a b : Int) (draw : UInt64) : Int :=
  min a b + (draw.toNat % (max a b - min a b + 1).toNat : Nat)

namespace Source

/-- A random integer between two bounds, both included, in either order. -/
def integer (a b : Int) (s : Source) : Int × Source :=
  let (raw, s) := s.draw
  (between a b raw, s)

/-- A random index below a length; no draw is made when there is none. -/
def index (length : Nat) (s : Source) : Nat × Source :=
  if length = 0 then (0, s)
  else
    let (raw, s) := s.draw
    (raw.toNat % length, s)

end Source

end NumberedMelody.Random
