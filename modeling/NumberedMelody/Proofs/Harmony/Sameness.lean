/-
  NumberedMelody/Proofs/Harmony/Sameness.lean
  ===========================================
  **Scales that compare equal.**  Steps are compared as numbers, so a step may
  be a zero of either sign.  Every whole note, every chord and every spelling
  comes out the same over such scales.
-/
import NumberedMelody.Harmony.ChordTemplate
import NumberedMelody.Harmony.Spelling
import NumberedMelody.Proofs.Binary64.Sameness

namespace NumberedMelody

open Binary64

/-- One name, or steps in one unit that compare equal one by one. -/
inductive Scale.Same : Scale → Scale → Prop
  | named (name : String) : Scale.Same (.named name) (.named name)
  | steps {steps steps' : List Float} (h : List.Forall₂ Binary64.Same steps steps') :
    Scale.Same (.steps steps) (.steps steps')
  | cents {cents cents' : List Float} (h : List.Forall₂ Binary64.Same cents cents') :
    Scale.Same (.cents cents) (.cents cents')

theorem forall₂_same_of_beq {xs ys : List Float} (h : xs == ys) : List.Forall₂ Same xs ys := by
  induction xs generalizing ys with
  | nil =>
    cases ys with
    | nil => exact .nil
    | cons => cases h
  | cons x xs ih =>
    cases ys with
    | nil => cases h
    | cons y ys =>
      rw [List.cons_beq_cons, Bool.and_eq_true] at h
      exact .cons (.of_beq h.1) (ih h.2)

/-- Lists that agree with a third one agree with one another. -/
theorem forall₂_common {α : Type} {R : α → α → Prop} (hR : ∀ {a b c}, R a c → R b c → R a b) {xs ys zs : List α}
    (h : List.Forall₂ R xs zs) (h' : List.Forall₂ R ys zs) : List.Forall₂ R xs ys := by
  induction h generalizing ys with
  | nil =>
    cases h'
    exact .nil
  | cons hx _ ih =>
    cases h' with
    | cons hy hmore => exact .cons (hR hx hy) (ih hmore)

namespace Scale.Same

variable {scale scale' : Scale}

theorem of_beq (h : scale == scale') : scale.Same scale' := by
  cases scale with
  | named name =>
    cases scale' with
    | named name' =>
      obtain rfl : name = name' := eq_of_beq h
      exact .named name
    | steps | cents => cases h
  | steps steps =>
    cases scale' with
    | steps steps' => exact .steps (forall₂_same_of_beq h)
    | named | cents => cases h
  | cents cents =>
    cases scale' with
    | cents cents' => exact .cents (forall₂_same_of_beq h)
    | named | steps => cases h

@[refl] theorem refl (scale : Scale) : scale.Same scale := by
  cases scale with
  | named name => exact .named name
  | steps steps => exact .steps (List.forall₂_refl steps)
  | cents cents => exact .cents (List.forall₂_refl cents)

theorem common {other : Scale} (h : scale.Same other) (h' : scale'.Same other) : scale.Same scale' := by
  have hsteps {xs ys zs : List Float} : List.Forall₂ Binary64.Same xs zs → List.Forall₂ Binary64.Same ys zs →
      List.Forall₂ Binary64.Same xs ys := forall₂_common fun hx hy => hx.trans hy.symm
  cases h with
  | named name =>
    cases h'
    exact .named name
  | steps h =>
    cases h' with
    | steps h' => exact .steps (hsteps h h')
  | cents h =>
    cases h' with
    | cents h' => exact .cents (hsteps h h')

theorem isChromatic (h : scale.Same scale') : scale.isChromatic = scale'.isChromatic := by
  cases h <;> rfl

theorem orChromatic {steps steps' : List Float} (h : List.Forall₂ Binary64.Same steps steps') :
    List.Forall₂ Binary64.Same (orChromatic steps) (orChromatic steps') := by
  cases h with
  | nil => exact List.forall₂_refl _
  | cons hhead htail => exact .cons hhead htail

theorem intervals (h : scale.Same scale') : List.Forall₂ Binary64.Same scale.intervals scale'.intervals := by
  cases h with
  | named name => exact List.forall₂_refl _
  | steps h => exact orChromatic h
  | cents h =>
    apply orChromatic
    rw [List.forall₂_map_left_iff, List.forall₂_map_right_iff]
    exact h.imp fun _ _ hstep => hstep.div 100.0

theorem span (h : scale.Same scale') : Binary64.Same scale.span scale'.span := .sum h.intervals

end Scale.Same

namespace Harmony

variable {scale scale' : Scale}

theorem same_noteOnSteps {steps steps' : List Float} (h : List.Forall₂ Same steps steps')
    (root degree octave modifier : Int) :
    Same (noteOnSteps steps root degree octave modifier) (noteOnSteps steps' root degree octave modifier) := by
  unfold noteOnSteps
  rw [h.length_eq]
  have hwithin := Same.sum (List.forall₂_take (degree % (steps'.length : Int)).toNat h)
  exact (((Same.refl _).add hwithin).add ((Same.refl _).mul (.sum h))).add (.refl _)

theorem same_exactNote (h : scale.Same scale') (root degree octave modifier : Int) :
    Same (exactNote root degree scale octave modifier) (exactNote root degree scale' octave modifier) :=
  same_noteOnSteps h.intervals root degree octave modifier

theorem floor32_exactNote (h : scale.Same scale') (root degree octave modifier : Int) :
    floor32 (exactNote root degree scale octave modifier) = floor32 (exactNote root degree scale' octave modifier) :=
  (same_exactNote h root degree octave modifier).floor32

/-- The distance to the note of 440 hertz is not a zero where the note is one. -/
theorem frequency_eq {note note' : Float} (h : Same note note') : frequency note = frequency note' := by
  have hdistance : note - 69.0 = note' - 69.0 := h.congr_eq (f := (· - 69.0)) (by decide +kernel)
  unfold frequency
  rw [hdistance]

theorem pitchBend_eq {note note' : Float} (h : Same note note') : pitchBend note = pitchBend note' :=
  h.congr_eq (by decide +kernel)

theorem degreeChord_eq (h : scale.Same scale') (degree : Int) (name : Option String) (root : Int) (octaves : Nat) :
    degreeChord degree name scale root octaves = degreeChord degree name scale' root octaves := by
  unfold degreeChord resolveNote
  rw [h.isChromatic]
  simp only [floor32_exactNote h]

theorem spell_eq (h : scale.Same scale') (note : Int) (key : Key) : spell note key scale = spell note key scale' := by
  unfold spell
  rw [h.isChromatic]

/-- A move by no octave does not change a tone, whichever zero it is. -/
theorem raise_eq {octaves octaves' : Float} (h : Same octaves octaves') : raise octaves = raise octaves' :=
  h.congr_eq rfl

end Harmony

end NumberedMelody
