/-
  NumberedMelody/Proofs/Melody/Requests.lean
  ==========================================
  **Starts and calls in any order.**  A history is a list of requests to one
  melody, starts and calls, of which any may fail.  Whatever every evaluation
  keeps, however the melody counts its cycles, holds after every history
  (`Lasting.afterRequests`).
-/
import NumberedMelody.Melody

namespace NumberedMelody.Melody

open NumberedMelody.Random (Source)

/-! ### Calls -/

/-- What can be asked of a melody between two indexed accesses. -/
inductive Call where
  | get (index : Nat)
  | take (n : Nat)
  | collect (n : Nat) (fields : List Field)
  | loop (n : Nat)
  | walk (n : Nat)
  | reEvaluate

/-- The melody that a call leaves, whether it fails or not. -/
def afterCall (m : Melody) : Call → Melody
  | .get index => (m.get index).1
  | .take n => (m.take n).1
  | .collect n fields => (m.collect n fields).1
  | .loop n => (m.loop n).1
  | .walk n => (m.walk n).1
  | .reEvaluate => m.reEvaluate.1

def afterCalls (m : Melody) (calls : List Call) : Melody := calls.foldl afterCall m

/-- The same melody with another number for its cycle and another cursor. -/
def moved (m : Melody) (cycle cursor : Nat) : Melody := { m with cycle, cursor }

/-! ### Requests -/

/-- Evaluate the first cycle on a given stream, as a start without a seed does. -/
def initFrom (m : Melody) (options : Options) (source : Source) : Melody × Except Failure Unit :=
  let started := { m with source, start := options, cycle := 0, cursor := 0 }
  match started.reEvaluate with
  | (m, .ok ()) => ({ m with initialized := true }, .ok ())
  | failed => failed

/-- What can be asked of a melody. -/
inductive Request where
  | call (call : Call)
  | init (options : Options)
  | initFrom (options : Options) (source : Source)

/-- The melody that a request leaves, whether it fails or not. -/
def afterRequest (m : Melody) : Request → Melody
  | .call call => m.afterCall call
  | .init options => (m.init options).1
  | .initFrom options source => (m.initFrom options source).1

def afterRequests (m : Melody) (history : List Request) : Melody := history.foldl afterRequest m

/-- A melody that was given a stream and has a history since. -/
def worn (m : Melody) (source : Source) (history : List Request) : Melody :=
  ({ m with source } : Melody).afterRequests history

def Request.options? : Request → Option Options
  | .call _ => none
  | .init options => some options
  | .initFrom options _ => some options

/-- What a call hands back. -/
inductive Answer where
  | event (result : Except Failure Event)
  | events (result : Except Failure (List Event))
  | rows (result : Except Failure (List (List Value)))
  | items (results : List (Except Failure Event))
  | walked (events : List Event)
  | evaluated (result : Except Failure Unit)

def answer (m : Melody) : Call → Answer
  | .get index => .event (m.get index).2
  | .take n => .events (m.take n).2
  | .collect n fields => .rows (m.collect n fields).2
  | .loop n => .items (m.loop n).2
  | .walk n => .walked (m.walk n).2
  | .reEvaluate => .evaluated m.reEvaluate.2

def answers (m : Melody) : List Call → List Answer
  | [] => []
  | call :: more => m.answer call :: (m.afterCall call).answers more

/-! ### What every history keeps -/

/-- What evaluation keeps, and starts with admitted options keep: it does not
    look at the number of the cycle or at the cursor. -/
structure Lasting (admitted : Options → Prop) (P : Melody → Prop) : Prop where
  reEvaluate : ∀ {m}, P m → P m.reEvaluate.1
  moved : ∀ {m}, P m → ∀ cycle cursor, P (m.moved cycle cursor)
  started : ∀ {m options}, P m → admitted options → ∀ source, P { m with source, start := options }
  initialized : ∀ {m}, P m → P { m with initialized := true }

namespace Lasting

variable {admitted : Options → Prop} {P : Melody → Prop} {m : Melody}

theorem inCycle (h : Lasting admitted P) (hm : P m) (cycle : Nat) : P (m.inCycle cycle).1 := by
  unfold Melody.inCycle
  by_cases hsame : cycle = m.cycle
  · rw [if_pos hsame]
    exact hm
  · rw [if_neg hsame]
    exact h.reEvaluate (h.moved hm cycle m.cursor)

theorem get (h : Lasting admitted P) (hm : P m) (index : Nat) : P (m.get index).1 := by
  unfold Melody.get
  split
  · exact hm
  · split
    · exact hm
    · next length _ =>
      have hcycle := h.inCycle hm (index / length)
      split
      · next left failure heq =>
        rw [heq] at hcycle
        exact hcycle
      · next left heq =>
        rw [heq] at hcycle
        exact hcycle

theorem takeFrom (h : Lasting admitted P) (n : Nat) : ∀ {m : Melody} (index : Nat), P m → P (m.takeFrom index n).1 := by
  induction n with
  | zero =>
    intro m index hm
    exact hm
  | succ n ih =>
    intro m index hm
    have hget := h.get hm index
    unfold Melody.takeFrom
    rcases hitem : m.get index with ⟨left, item⟩
    rw [hitem] at hget
    cases item with
    | error failure => exact hget
    | ok e => exact ih (index + 1) hget

theorem loopFrom (h : Lasting admitted P) (n : Nat) : ∀ {m : Melody} (index : Nat), P m → P (m.loopFrom index n).1 := by
  induction n with
  | zero =>
    intro m index hm
    exact hm
  | succ n ih =>
    intro m index hm
    exact ih (index + 1) (h.get hm index)

theorem afterCall (h : Lasting admitted P) (hm : P m) (call : Call) : P (m.afterCall call) := by
  cases call with
  | get index => exact h.get hm index
  | take n => exact h.takeFrom n 0 hm
  | collect n fields => exact h.takeFrom n 0 hm
  | loop n => exact h.loopFrom n 0 hm
  | walk n => exact h.moved hm m.cycle _
  | reEvaluate => exact h.reEvaluate hm

theorem afterCalls (h : Lasting admitted P) (calls : List Call) : ∀ {m : Melody}, P m → P (m.afterCalls calls) := by
  induction calls with
  | nil =>
    intro m hm
    exact hm
  | cons call more ih =>
    intro m hm
    exact ih (h.afterCall hm call)

theorem initFrom (h : Lasting admitted P) (hm : P m) {options : Options} (hoptions : admitted options)
    (source : Source) : P (m.initFrom options source).1 := by
  have hevaluated := h.reEvaluate (h.moved (h.started hm hoptions source) 0 0)
  unfold Melody.initFrom
  simp only [Melody.moved] at hevaluated ⊢
  split
  · next left heq =>
    rw [heq] at hevaluated
    exact h.initialized hevaluated
  · exact hevaluated

theorem afterRequest (h : Lasting admitted P) (hm : P m) (request : Request)
    (hoptions : ∀ options ∈ request.options?, admitted options) : P (m.afterRequest request) := by
  cases request with
  | call call => exact h.afterCall hm call
  | init options => exact h.initFrom hm (hoptions options rfl) (.ofSeed (options.seed.getD 0))
  | initFrom options source => exact h.initFrom hm (hoptions options rfl) source

theorem afterRequests (h : Lasting admitted P) (history : List Request) :
    ∀ {m : Melody}, P m → (∀ request ∈ history, ∀ options ∈ request.options?, admitted options) →
      P (m.afterRequests history) := by
  induction history with
  | nil =>
    intro m hm _
    exact hm
  | cons request more ih =>
    intro m hm hoptions
    have hfirst := h.afterRequest hm request (hoptions request (List.mem_cons_self ..))
    exact ih hfirst fun other hother => hoptions other (List.mem_cons_of_mem _ hother)

end Lasting

end NumberedMelody.Melody
