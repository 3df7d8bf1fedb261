/-
  NumberedMelody/Evaluation/ListArithmetic.lean
  =============================================
  **Operations between lists of events.**  Arithmetic pairs every degree of
  the right list with every degree of the left, the right list outermost; the
  two arpeggios pick by index, wrapping around; an expression maps every
  degree.  Degrees are 32-bit integers, and division and remainder go with
  the floor.
-/
import NumberedMelody.Event
import NumberedMelody.Expr
import NumberedMelody.Tree.Operator

namespace NumberedMelody

/-! ### Arithmetic on degrees -/

/-- Degrees are signed integers of 32 bits. -/
def fits32 (n : Int) : Bool := -2147483648 ≤ n && n ≤ 2147483647

/-- A result that fits; none if it does not. -/
def checked32 (n : Int) : Option Int := if fits32 n then some n else none

/-- The Euclidean quotient and remainder.  Without a quotient that fits there is
    no remainder either. -/
def divided32 (a b : Int) : Option (Int × Int) := (checked32 (a / b)).map fun quotient => (quotient, a % b)

/-- Operators that a zero on the right is not admissible to. -/
def Arithmetic.divides : Arithmetic → Bool
  | .divide => true
  | .modulo => true
  | _ => false

/-- The result of an operator on two degrees, if it fits.  By a negative divisor
    the Euclidean quotient lies one above the floor, unless the division is even. -/
def Arithmetic.checked (op : Arithmetic) (a b : Int) : Option Int :=
  match op with
  | .add => checked32 (a + b)
  | .subtract => checked32 (a - b)
  | .multiply => checked32 (a * b)
  | .divide => (divided32 a b).map fun (quotient, remainder) =>
      if b < 0 ∧ remainder ≠ 0 then quotient - 1 else quotient
  | .modulo => (divided32 a b).map fun (_, remainder) => if b < 0 ∧ remainder ≠ 0 then remainder + b else remainder

/-- The result of an operator on two degrees. -/
def Arithmetic.apply (op : Arithmetic) (a b : Int) : Except Failure Int :=
  if op.divides && b == 0 then .error .divisionByZero
  else
    match op.checked a b with
    | some result => .ok result
    | none => .error (.overflow a op b)

/-! ### Derived pitches -/

namespace ListArithmetic

/-- A new degree in place of an old one: octave, modifier, duration, key and
    scale are kept, the note is computed anew. -/
def derive (template : Pitch) (degree : Int) (options : Options) : Pitch :=
  let fresh : Pitch :=
    { template with
      text := toString degree, overrides := {}, degree, note := none, frequency := none, bend := none }
  (fresh.adopt options).tune true

def deriveChord (tones : List Pitch) (options : Options) : Event :=
  let chord : Chord := { text := String.join (tones.map (·.text)), tones }
  .chord (chord.resolve options)

def combinePitch (op : Arithmetic) (options : Options) (a : Pitch) (degree : Int) : Except Failure Pitch := do
  let result ← op.apply a.degree degree
  return derive a result options

/-- The tones of an event with degrees. -/
def tonesOf : Event → List Pitch
  | .pitch p => [p]
  | .chord c => c.tones
  | _ => []

/-- Two events combined: tone by tone, a chord if either is one. -/
def combinePair (op : Arithmetic) (options : Options) (left right : Event) : Except Failure Event :=
  match left, right with
  | .pitch a, .pitch b => do
    let p ← combinePitch op options a b.degree
    return .pitch p
  | _, _ => do
    let tones ← (tonesOf left).mapM fun a => (tonesOf right).mapM fun b => combinePitch op options a b.degree
    return deriveChord tones.flatten options

/-- Every event of the right list with every event of the left, the right list
    outermost; events without degrees are left out. -/
def combine (op : Arithmetic) (options : Options) (left right : List Event) : Except Failure (List Event) := do
  let lefts := left.filter Event.isPitched
  let rows ← (right.filter Event.isPitched).mapM fun r => lefts.mapM fun l => combinePair op options l r
  return rows.flatten

/-! ### Arpeggios -/

/-- The element at an index, wrapping around at both ends. -/
def wrapped? {α : Type} (xs : List α) (index : Int) : Option α := xs[(index % (xs.length : Int)).toNat]?

/-- The tone that an index picks, with the duration of the index if it has one. -/
def pickTone (tones : List Pitch) (index : Pitch) : Option Pitch :=
  (wrapped? tones index.degree).map fun tone => { tone with duration := index.duration.or tone.duration }

/-- What one index picks from the tones of a chord. -/
def pickVertical (tones : List Pitch) : Event → List Event
  | .pitch index => (pickTone tones index).toList.map .pitch
  | .chord c =>
    let chord : Chord := { text := c.text, tones := c.tones.filterMap (pickTone tones) }
    [.chord { chord.sort with duration := c.duration }]
  | other => [other]

/-- For every chord on the left, and every index on the right, the tones picked. -/
def vertical (left indices : List Event) : List Event :=
  ((left.map tonesOf).filter (!·.isEmpty)).flatMap fun tones => indices.flatMap (pickVertical tones)

/-- What one index picks from a list of events. -/
def pickHorizontal (pool : List Event) : Event → List Event
  | .pitch index => (wrapped? pool index.degree).toList
  | .chord c =>
    let tones := c.tones.flatMap fun index => ((wrapped? pool index.degree).map tonesOf).getD []
    let chord : Chord := { text := c.text, tones }
    [.chord { chord.sort with duration := Chord.firstDuration chord.sort.tones }]
  | other => [other]

/-- Elements of the left list by the indices on the right; nothing from an empty list. -/
def horizontal (pool indices : List Event) : List Event :=
  if pool.isEmpty then [] else indices.flatMap (pickHorizontal pool)

/-! ### Interleaving and mapping -/

/-- Two lists interleaved, the shorter one repeated; an empty one leaves the other. -/
def interleave {α : Type} (left right : List α) : List α :=
  if left.isEmpty then right
  else if right.isEmpty then left
  else
    (List.range (max left.length right.length)).flatMap fun i =>
      (left[i % left.length]?).toList ++ (right[i % right.length]?).toList

/-- A degree through an expression, brought into 32 bits. -/
def mapPitch (expr : Expr) (options : Options) (p : Pitch) : Except Failure Pitch := do
  let value ← expr.eval (some (Float.ofInt p.degree))
  return derive p (Binary64.floor32 value) options

/-- The degrees of an event through an expression; others stay. -/
def mapEvent (expr : Expr) (options : Options) : Event → Except Failure Event
  | .pitch p => do
    let p ← mapPitch expr options p
    return .pitch p
  | .chord c => do
    let tones ← c.tones.mapM (mapPitch expr options)
    return deriveChord tones options
  | other => .ok other

def mapEvents (expr : Expr) (options : Options) (events : List Event) : Except Failure (List Event) :=
  events.mapM (mapEvent expr options)

end ListArithmetic

end NumberedMelody
