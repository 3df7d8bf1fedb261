/-
  NumberedMelody/Proofs/Harmony/Ascending.lean
  ============================================
  **Higher degrees sound higher.**  Without rounding, one degree more is one step
  of the scale more, also where the degrees fold into the next octave: there the
  steps have all been added up, and the next octave starts from their sum
  (`noteOnSteps_succ`).  Over positive steps the notes therefore ascend along all
  degrees, on both sides of zero, and the degrees of one octave lie below the
  first degree of the next (`higher_degrees_sound_higher`).
-/
import Mathlib.Algebra.BigOperators.Group.List.Basic
import Mathlib.Order.Monotone.Basic
import Mathlib.Tactic.Ring
import NumberedMelody.Proofs.Harmony.Octaves
import NumberedMelody.Proofs.Quantity

namespace NumberedMelody.Harmony

variable {steps : List Rat}

theorem noteOnSteps_eq (steps : List Rat) (root degree octave modifier : Int) :
    noteOnSteps steps root degree octave modifier =
      root + (steps.take (degree % (steps.length : Int)).toNat).sum +
        ((octave + degree / (steps.length : Int) : Int) : Rat) * steps.sum + modifier := by
  rw [← Quantity.sum_eq_sum, ← Quantity.sum_eq_sum]
  rfl

/-- **One degree more is one step more**, also from one octave to the next. -/
theorem noteOnSteps_succ (hsome : steps ≠ []) (root degree octave modifier : Int) :
    ∃ step ∈ steps, noteOnSteps steps root (degree + 1) octave modifier =
      noteOnSteps steps root degree octave modifier + step := by
  obtain ⟨place, hplace, hdegree, -⟩ := exists_place hsome degree
  have hpos : (0 : Int) < steps.length := by omega
  have hparts := Int.emod_add_mul_ediv degree steps.length
  rw [hdegree] at hparts
  have htaken : (steps.take (place + 1)).sum = (steps.take place).sum + steps[place] :=
    List.sum_take_succ steps place hplace
  refine ⟨steps[place], List.getElem_mem hplace, ?_⟩
  rw [noteOnSteps_eq, noteOnSteps_eq, hdegree]
  by_cases hinside : place + 1 < steps.length
  · obtain ⟨hquotient, hremainder⟩ :
        (degree + 1) / (steps.length : Int) = degree / (steps.length : Int) ∧
          (degree + 1) % (steps.length : Int) = (place + 1 : Nat) :=
      (Int.ediv_emod_unique hpos).mpr ⟨by push_cast; omega, by omega, by omega⟩
    rw [hquotient, hremainder, Int.toNat_natCast, Int.toNat_natCast, htaken]
    ring
  · -- the step behind the last place leads to the first place of the next octave
    have hlast : steps.take (place + 1) = steps := List.take_of_length_le (by omega)
    obtain ⟨hquotient, hremainder⟩ :
        (degree + 1) / (steps.length : Int) = degree / (steps.length : Int) + 1 ∧
          (degree + 1) % (steps.length : Int) = (0 : Nat) :=
      (Int.ediv_emod_unique hpos).mpr ⟨by rw [Int.mul_add]; push_cast; omega, by omega, by omega⟩
    rw [hlast] at htaken
    rw [hquotient, hremainder, Int.toNat_natCast, Int.toNat_natCast, List.take_zero, List.sum_nil, htaken]
    push_cast
    ring

/-- Over positive steps, notes ascend with their degrees. -/
theorem noteOnSteps_strictMono (hsome : steps ≠ []) (hpositive : ∀ step ∈ steps, 0 < step)
    (root octave modifier : Int) : StrictMono fun degree => noteOnSteps steps root degree octave modifier := by
  refine strictMono_int_of_lt_succ fun degree => ?_
  obtain ⟨step, hstep, hnext⟩ := noteOnSteps_succ hsome root degree octave modifier
  rw [hnext]
  exact lt_add_of_pos_right _ (hpositive step hstep)

/-- The first degree lies so many octaves above the root. -/
theorem noteOnSteps_zero (steps : List Rat) (root octave modifier : Int) :
    noteOnSteps steps root 0 octave modifier = root + octave * steps.sum + modifier := by
  rw [noteOnSteps_eq]
  simp

/-- The first degree of the next octave lies a span higher. -/
theorem noteOnSteps_length (hsome : steps ≠ []) (root octave modifier : Int) :
    noteOnSteps steps root steps.length octave modifier = root + octave * steps.sum + modifier + steps.sum := by
  have hfold := noteOnSteps_fold hsome root 0 octave modifier 1
  rw [Int.zero_add, Int.one_mul] at hfold
  rw [hfold, noteOnSteps_zero]
  push_cast
  ring

/-- **Higher degrees sound higher.**  However the numbers of a scale are read as
    rational numbers, if its steps are all positive, a higher degree has a higher
    note, whatever the octaves are that the two degrees fold into; and the degrees
    from zero up to the size of the scale lie within one span, from the note of the
    first degree on. -/
theorem higher_degrees_sound_higher (read : Float → Rat) {scale : Scale}
    (hpositive : ∀ step ∈ scale.stepsIn read, 0 < step) (root octave modifier : Int) :
    (∀ p q : Int, p < q → noteIn read root p scale octave modifier < noteIn read root q scale octave modifier) ∧
      ∀ p : Int, 0 ≤ p → p < scale.size →
        root + octave * (scale.stepsIn read).sum + modifier ≤ noteIn read root p scale octave modifier ∧
        noteIn read root p scale octave modifier <
          root + octave * (scale.stepsIn read).sum + modifier + (scale.stepsIn read).sum := by
  have hsome := scale.stepsIn_ne_nil read
  have hascends := noteOnSteps_strictMono hsome hpositive root octave modifier
  refine ⟨fun p q hlt => hascends hlt, ?_⟩
  intro p hlow hhigh
  rw [← scale.length_stepsIn read] at hhigh
  have hfirst := hascends.monotone hlow
  have hnext := hascends hhigh
  simp only [noteOnSteps_zero, noteOnSteps_length hsome] at hfirst hnext
  exact ⟨hfirst, hnext⟩

/-- Three steps written in cents, the middle one not whole: two octaves below the
    root and one above it, and the last degree of an octave. -/
theorem cents_sound_higher :
    let scale : Scale := .cents [150.0, 350.0, 700.0]
    let read : Float → Rat := fun x => Binary64.floor32 x
    (∀ step ∈ scale.stepsIn read, 0 < step) ∧ noteIn read 60 (-4) scale 0 0 = 41 ∧ noteIn read 60 5 scale 0 0 = 77 ∧
      noteIn read 60 (-4) scale 0 0 < noteIn read 60 5 scale 0 0 ∧
      60 + 1 * (scale.stepsIn read).sum + 0 ≤ noteIn read 60 2 scale 1 0 ∧
      noteIn read 60 2 scale 1 0 < 60 + 1 * (scale.stepsIn read).sum + 0 + (scale.stepsIn read).sum := by
  intro scale read
  have hpositive : ∀ step ∈ scale.stepsIn read, 0 < step := by decide +kernel
  obtain ⟨hascends, -⟩ := higher_degrees_sound_higher read hpositive 60 0 0
  obtain ⟨-, hwithin⟩ := higher_degrees_sound_higher read hpositive 60 1 0
  exact ⟨hpositive, by decide +kernel, by decide +kernel, hascends (-4) 5 (by decide),
    hwithin 2 (by decide) (by decide +kernel)⟩

end NumberedMelody.Harmony
