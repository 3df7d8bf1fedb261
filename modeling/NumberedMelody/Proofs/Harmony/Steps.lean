/-
  NumberedMelody/Proofs/Harmony/Steps.lean
  ========================================
  **The steps of a scale over any quantities.**  A scale is written with
  doubles, but how its steps are found does not depend on what they are read as
  (`Scale.stepsIn`).  Read as the doubles that they are, they are the intervals
  that patterns are played with (`Scale.stepsIn_id`, `Harmony.noteIn_id`); read as
  rational numbers, a scale in cents is divided into semitones without rounding.
-/
import NumberedMelody.Harmony.Degree

namespace NumberedMelody

namespace Scale

theorem orChromatic_ne_nil (steps : List Float) : orChromatic steps ≠ [] := by
  cases steps with
  | nil => exact List.cons_ne_nil _ _
  | cons step more => exact List.cons_ne_nil step more

/-- **Every scale has a step**, also one that was written without any. -/
theorem size_pos (scale : Scale) : 0 < scale.size := List.length_pos_iff.mpr (orChromatic_ne_nil _)

variable {α : Type} [Quantity α]

/-- Twelve semitones in place of no steps. -/
def orTwelve (steps : List α) : List α := if steps.isEmpty then List.replicate 12 (Quantity.ofInt 1) else steps

theorem length_orTwelve (steps : List α) :
    (orTwelve steps).length = if steps.length = 0 then 12 else steps.length := by
  cases steps <;> rfl

/-- The steps in semitones, where the numbers of the scale are read as
    quantities; never empty. -/
def stepsIn (read : Float → α) (scale : Scale) : List α :=
  orTwelve <| match scale with
    | .named name => (((lookup name).or (lookup ionian)).getD []).map fun (step : Nat) => Quantity.ofInt step
    | .steps semitones => semitones.map read
    | .cents hundredths => hundredths.map fun hundredth => read hundredth / Quantity.ofInt 100

/-- **Patterns are played with the steps read as they are.** -/
theorem stepsIn_id (scale : Scale) : scale.stepsIn id = scale.intervals := by
  cases scale with
  | named name => rfl
  | steps semitones =>
    simp only [stepsIn, List.map_id]
    rfl
  | cents hundredths => rfl

theorem length_stepsIn (read : Float → α) (scale : Scale) : (scale.stepsIn read).length = scale.size := by
  rw [size, ← stepsIn_id]
  cases scale <;> simp only [stepsIn, length_orTwelve, List.length_map]

theorem stepsIn_ne_nil (read : Float → α) (scale : Scale) : scale.stepsIn read ≠ [] := by
  rw [← List.length_pos_iff, length_stepsIn]
  exact scale.size_pos

end Scale

namespace Harmony

variable {α : Type} [Quantity α]

/-- The note of a degree where the numbers of the scale are read as quantities,
    not yet floored. -/
def noteIn (read : Float → α) (root degree : Int) (scale : Scale) (octave modifier : Int) : α :=
  noteOnSteps (scale.stepsIn read) root degree octave modifier

theorem noteIn_id (root degree : Int) (scale : Scale) (octave modifier : Int) :
    noteIn id root degree scale octave modifier = exactNote root degree scale octave modifier := by
  rw [noteIn, Scale.stepsIn_id, exactNote]

end Harmony

end NumberedMelody
