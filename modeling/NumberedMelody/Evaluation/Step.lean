/-
  NumberedMelody/Evaluation/Step.lean
  ===================================
  **Sharing out durations.**  Evaluation first yields steps: events that are
  ready, and subdivisions whose children wait for their share.  A subdivision
  divides its duration equally among its children, and those of them that are
  subdivisions divide their share in turn.
-/
import NumberedMelody.Event
import NumberedMelody.Failure

namespace NumberedMelody

/-- An event, or children waiting for their shares of a budget. -/
inductive Step (τ : Type := Float) where
  | ready (e : Event τ)
  | subdivided (budget : τ) (steps : List (Step τ))
  deriving Repr, Inhabited

namespace Step

variable {τ : Type} [Quantity τ]

/-- The share of each of so many children. -/
def share (budget : τ) (children : Nat) : τ := budget / Quantity.ofInt children

mutual

/-- The events of a step that lasts so long.  The budget that an inner
    subdivision was given does not count: it has its share. -/
def eventsLasting (d : τ) : Step τ → Except Failure (List (Event τ))
  | .ready e => .ok [e.setDuration d]
  | .subdivided _ [] => .error .emptySubdivision
  | .subdivided _ (step :: more) => eventsEachLasting (share d (more.length + 1)) (step :: more)

/-- The events of steps that last so long each. -/
def eventsEachLasting (d : τ) : List (Step τ) → Except Failure (List (Event τ))
  | [] => .ok []
  | step :: more => do
    let first ← eventsLasting d step
    let others ← eventsEachLasting d more
    return first ++ others

end

/-- The events of a step: a ready one as it is, a subdivision over its budget. -/
def events : Step τ → Except Failure (List (Event τ))
  | .ready e => .ok [e]
  | .subdivided budget steps => eventsLasting budget (.subdivided budget steps)

/-- The pitch of a step that is a single ready pitch. -/
def pitch? : Step → Option Pitch
  | .ready e => e.pitch?
  | .subdivided _ _ => none

end Step

/-- Give every subdivided child its share, and list the events in order. -/
def assignDurations {τ : Type} [Quantity τ] : List (Step τ) → Except Failure (List (Event τ))
  | [] => .ok []
  | step :: more => do
    let first ← step.events
    let others ← assignDurations more
    return first ++ others

end NumberedMelody
