/-
  NumberedMelody/Proofs/Harmony/WholeSteps.lean
  =============================================
  **Scales of whole steps.**  Over steps that are whole numbers of semitones
  nothing is rounded: the note of a degree is a sum of integers
  (`isWhole_exactNote`), and an octave more is the span of the scale more
  (`wholeNote_octave`).  All named scales are of this kind.

  Notes are spelled as degrees of the major scale on middle C, or as steps of
  the chromatic scale; over these scales, in that key, the note of the degree is
  the note that was spelled (`wholeNote_spell`).
-/
import Mathlib.Tactic.IntervalCases
import NumberedMelody.Evaluation.ListArithmetic
import NumberedMelody.Harmony.Spelling
import NumberedMelody.Proofs.Binary64.WholeNumbers

namespace NumberedMelody

open Binary64

/-! ### Integers of 32 bits -/

theorem natAbs_le_of_fits32 {n : Int} (h : fits32 n = true) : n.natAbs ≤ 2 ^ 31 := by
  simp only [fits32, Bool.and_eq_true, decide_eq_true_eq] at h
  omega

theorem fits32_of_natAbs_lt {n : Int} (h : n.natAbs < 2 ^ 31) : fits32 n = true := by
  simp only [fits32, Bool.and_eq_true, decide_eq_true_eq]
  omega

theorem clamp32_of_fits32 {n : Int} (h : fits32 n = true) : clamp32 n = n := by
  simp only [fits32, Bool.and_eq_true, decide_eq_true_eq] at h
  unfold clamp32
  omega

/-! ### Integer steps -/

/-- The steps of a scale are these integers, which add up to no more than
    `2 ^ 20` whatever their signs are. -/
structure Scale.WholeSteps (scale : Scale) (steps : List Int) : Prop where
  whole : List.Forall₂ IsWhole scale.intervals steps
  bounded : (steps.map Int.natAbs).sum ≤ 2 ^ 20

theorem Scale.WholeSteps.unique {scale : Scale} {steps steps' : List Int} (h : scale.WholeSteps steps)
    (h' : scale.WholeSteps steps') : steps = steps' := by
  have hunique : Relator.RightUnique IsWhole := fun _ _ _ hstep hstep' => hstep.unique hstep'
  exact hunique.forall₂ h.whole h'.whole

namespace Harmony

/-- The note of a degree over integer steps. -/
def wholeNote (steps : List Int) (root degree octave modifier : Int) : Int :=
  root + (steps.take (degree % (steps.length : Int)).toNat).sum +
    (octave + degree / (steps.length : Int)) * steps.sum + modifier

variable {scale : Scale} {steps : List Int} {root degree octave modifier : Int}

/-- **An octave higher, the note is a span higher.** -/
theorem wholeNote_octave (octaves : Int) :
    wholeNote steps root degree (octave + octaves) modifier =
      wholeNote steps root degree octave modifier + octaves * steps.sum := by
  unfold wholeNote
  ring

theorem natAbs_add_le_of_le {a b : Int} {m n : Nat} (ha : a.natAbs ≤ m) (hb : b.natAbs ≤ n) :
    (a + b).natAbs ≤ m + n := (Int.natAbs_add_le a b).trans (Nat.add_le_add ha hb)

theorem natAbs_sum_le (steps : List Int) : steps.sum.natAbs ≤ (steps.map Int.natAbs).sum := by
  induction steps with
  | nil => rfl
  | cons step more ih =>
    rw [List.sum_cons, List.map_cons, List.sum_cons]
    exact (Int.natAbs_add_le _ _).trans (Nat.add_le_add_left ih _)

theorem sum_natAbs_take_le (steps : List Int) (n : Nat) :
    ((steps.take n).map Int.natAbs).sum ≤ (steps.map Int.natAbs).sum := by
  conv => rhs; rw [← List.take_append_drop n steps, List.map_append, List.sum_append]
  exact Nat.le_add_right _ _

/-- **Over whole steps the note of a degree is computed exactly.** -/
theorem isWhole_exactNote (hsteps : scale.WholeSteps steps) (hroot : fits32 root = true)
    (hdegree : fits32 degree = true) (hoctave : fits32 octave = true) (hmodifier : fits32 modifier = true) :
    IsWhole (exactNote root degree scale octave modifier) (wholeNote steps root degree octave modifier) := by
  replace hroot := natAbs_le_of_fits32 hroot
  replace hdegree := natAbs_le_of_fits32 hdegree
  replace hoctave := natAbs_le_of_fits32 hoctave
  replace hmodifier := natAbs_le_of_fits32 hmodifier
  have hlength := hsteps.whole.length_eq
  -- each part is far from where doubles get inexact, and so are the sums of the parts
  have hmagnitudes := (sum_natAbs_take_le steps (degree % (steps.length : Int)).toNat).trans hsteps.bounded
  have hwithinBound := (natAbs_sum_le _).trans hmagnitudes
  have hspanBound := (natAbs_sum_le steps).trans hsteps.bounded
  have hfoldedBound : (octave + degree / (steps.length : Int)).natAbs ≤ 2 ^ 31 + 2 ^ 31 :=
    natAbs_add_le_of_le hoctave ((Int.natAbs_ediv_le_natAbs _ _).trans hdegree)
  have hoctavesBound : ((octave + degree / (steps.length : Int)) * steps.sum).natAbs ≤
      (2 ^ 31 + 2 ^ 31) * 2 ^ 20 := by
    rw [Int.natAbs_mul]
    exact Nat.mul_le_mul hfoldedBound hspanBound
  have hlower := natAbs_add_le_of_le hroot hwithinBound
  have hunaltered := natAbs_add_le_of_le hlower hoctavesBound
  have haltered := natAbs_add_le_of_le hunaltered hmodifier
  have hwithin := IsWhole.sum (List.forall₂_take (degree % (steps.length : Int)).toNat hsteps.whole)
    (hmagnitudes.trans_lt (by decide))
  have hspan := IsWhole.sum hsteps.whole (hsteps.bounded.trans_lt (by decide))
  have hfolded : IsWhole (Float.ofInt (octave + degree / (steps.length : Int)))
      (octave + degree / (steps.length : Int)) := .ofInt (hfoldedBound.trans_lt (by decide))
  have hroot' : IsWhole (Float.ofInt root) root := .ofInt (hroot.trans_lt (by decide))
  have hmodifier' : IsWhole (Float.ofInt modifier) modifier := .ofInt (hmodifier.trans_lt (by decide))
  have hoctaves := hfolded.mul hspan (hoctavesBound.trans_lt (by decide))
  unfold exactNote noteOnSteps wholeNote
  rw [hlength]
  exact ((hroot'.add hwithin (hlower.trans_lt (by decide))).add hoctaves (hunaltered.trans_lt (by decide))).add
    hmodifier' (haltered.trans_lt (by decide))

end Harmony

/-! ### Named scales -/

namespace Scale

theorem WholeSteps.of_natural {scale : Scale} {steps : List Nat} (h : scale.intervals = steps.map Float.ofNat)
    (hbounded : steps.sum ≤ 2 ^ 20) : scale.WholeSteps (steps.map (↑)) := by
  have hmagnitudes : (steps.map (Nat.cast : Nat → Int)).map Int.natAbs = steps := by
    rw [List.map_map]
    exact (List.map_congr_left fun step _ => Int.natAbs_natCast step).trans (List.map_id steps)
  constructor
  · rw [h, List.forall₂_map_left_iff, List.forall₂_map_right_iff, List.forall₂_same]
    intro step hstep
    have hle := List.single_le_sum (fun _ _ => Nat.zero_le _) step hstep
    exact .ofNat (by omega)
  · rwa [hmagnitudes]

theorem intervals_named {name : String} {steps : List Nat} (h : (lookup name).or (lookup ionian) = some steps)
    (hsome : steps ≠ []) : (named name).intervals = steps.map Float.ofNat := by
  simp [intervals, h, orChromatic, hsome]

/-- The steps of the major scale. -/
def majorSteps : List Nat := [2, 2, 1, 2, 2, 2, 1]

/-- The steps of the chromatic scale. -/
def chromaticSteps : List Nat := List.replicate 12 1

theorem lookup_ionian : lookup ionian = some majorSteps := by decide +kernel

theorem intervals_ionian : (named ionian).intervals = majorSteps.map Float.ofNat :=
  intervals_named (by rw [lookup_ionian, Option.some_or]) (by decide)

theorem wholeSteps_ionian : (named ionian).WholeSteps (majorSteps.map (↑)) := .of_natural intervals_ionian (by decide)

/-- **Every named scale is one of whole steps**, and an unknown name stands for the major one. -/
theorem wholeSteps_named (name : String) : ∃ steps, (named name).WholeSteps steps := by
  have htable : ∀ entry ∈ table, entry.2 ≠ [] ∧ entry.2.sum ≤ 2 ^ 20 := by decide +kernel
  cases hlookup : lookup name with
  | none =>
    have hsteps : (named name).intervals = majorSteps.map Float.ofNat :=
      intervals_named (by rw [hlookup, Option.none_or, lookup_ionian]) (by decide)
    exact ⟨_, .of_natural hsteps (by decide)⟩
  | some steps =>
    obtain ⟨before, after, hentry, -⟩ := List.lookup_eq_some_iff.mp hlookup
    have hmem : (foldName name, steps) ∈ table := by
      rw [hentry]
      exact List.mem_append_right _ (List.mem_cons_self ..)
    obtain ⟨hsome, hbounded⟩ := htable _ hmem
    exact ⟨_, .of_natural (intervals_named (by rw [hlookup, Option.some_or]) hsome) hbounded⟩

theorem foldCase_of_chromatic {c : Char} (h : c.toLower ∈ "chromatic".toList) :
    (c != ' ' && c != '_' && c != '-') = true ∧ foldCase c = c.toLower := by
  have hnot : ∀ other : Char, other.toLower ∉ "chromatic".toList → c ≠ other := by
    rintro other hother rfl
    exact hother h
  have hkelvin : c.toNat ≠ 0x212A := by
    intro hc
    refine hnot (Char.ofNat 0x212A) (by decide) ?_
    rw [← hc, Char.ofNat_toNat]
  refine ⟨?_, if_neg hkelvin⟩
  simp [hnot ' ' (by decide), hnot '_' (by decide), hnot '-' (by decide)]

theorem wholeSteps_of_isChromatic {scale : Scale} (h : scale.isChromatic = true) :
    scale.WholeSteps (chromaticSteps.map (↑)) := by
  cases scale with
  | named name =>
    have hletters : name.toList.map Char.toLower = "chromatic".toList := eq_of_beq h
    have hfolds : ∀ c ∈ name.toList, (c != ' ' && c != '_' && c != '-') = true ∧ foldCase c = c.toLower := by
      intro c hc
      refine foldCase_of_chromatic ?_
      rw [← hletters]
      exact List.mem_map_of_mem hc
    have hfolded : foldName name = "chromatic" := by
      unfold foldName
      rw [List.filter_eq_self.mpr fun c hc => (hfolds c hc).1,
        List.map_congr_left fun c hc => (hfolds c hc).2, hletters]
      rfl
    have hlookup : lookup name = some chromaticSteps := by
      unfold lookup
      rw [hfolded]
      decide +kernel
    exact .of_natural (intervals_named (by rw [hlookup, Option.some_or]) (by decide)) (by decide)
  | steps | cents => cases h

end Scale

/-! ### Spelled notes -/

namespace Harmony

/-- A key and a scale in which notes are spelled as what they are: the major
    scale on middle C, and the chromatic scale by its plain name. -/
def SpellsIn (key : Key) (scale : Scale) : Prop :=
  key.toMidi = middleC ∧ (scale.isChromatic = true ∨ scale.WholeSteps (Scale.majorSteps.map (↑)))

/-- A step of the octave is the degree that spells it, with its accidental. -/
theorem spellStep_spells {chromatic : Int} (hlow : 0 ≤ chromatic) (hhigh : chromatic < 12) (flat : Bool) :
    0 ≤ (spellStep chromatic flat).1 ∧ (spellStep chromatic flat).1 < 7 ∧
      ((Scale.majorSteps.map (Nat.cast : Nat → Int)).take (spellStep chromatic flat).1.toNat).sum +
        (spellStep chromatic flat).2 = chromatic := by
  interval_cases chromatic <;> cases flat <;> decide +kernel

/-- Over major steps, degrees of one octave are counted without folding. -/
theorem wholeNote_major {degree : Int} (hlow : 0 ≤ degree) (hhigh : degree < 7) (root octave modifier : Int) :
    wholeNote (Scale.majorSteps.map (↑)) root degree octave modifier =
      root + ((Scale.majorSteps.map (Nat.cast : Nat → Int)).take degree.toNat).sum + octave * 12 + modifier := by
  have hlength : (((Scale.majorSteps.map (Nat.cast : Nat → Int)).length : Nat) : Int) = 7 := rfl
  have hspan : (Scale.majorSteps.map (Nat.cast : Nat → Int)).sum = 12 := rfl
  unfold wholeNote
  rw [hlength, hspan, Int.emod_eq_of_lt hlow hhigh, Int.ediv_eq_zero_of_lt hlow hhigh, Int.add_zero]

theorem wholeNote_chromatic {degree : Int} (hlow : 0 ≤ degree) (hhigh : degree < 12) (root octave modifier : Int) :
    wholeNote (Scale.chromaticSteps.map (↑)) root degree octave modifier = root + degree + octave * 12 + modifier := by
  have hlength : (((Scale.chromaticSteps.map (Nat.cast : Nat → Int)).length : Nat) : Int) = 12 := rfl
  have hspan : (Scale.chromaticSteps.map (Nat.cast : Nat → Int)).sum = 12 := rfl
  have hwithin : ((Scale.chromaticSteps.map (Nat.cast : Nat → Int)).take degree.toNat).sum = degree := by
    simp only [Scale.chromaticSteps, List.map_replicate, List.take_replicate, List.sum_replicate, Nat.cast_one,
      nsmul_one]
    omega
  unfold wholeNote
  rw [hlength, hspan, Int.emod_eq_of_lt hlow hhigh, Int.ediv_eq_zero_of_lt hlow hhigh, Int.add_zero, hwithin]

theorem spell_degree_bounds (note : Int) (key : Key) (scale : Scale) :
    0 ≤ (spell note key scale).degree ∧ (spell note key scale).degree < 12 := by
  have hlow : 0 ≤ note % 12 := by omega
  have hhigh : note % 12 < 12 := by omega
  unfold spell
  cases scale.isChromatic with
  | true => exact ⟨hlow, hhigh⟩
  | false =>
    obtain ⟨hlow', hhigh', -⟩ := spellStep_spells hlow hhigh
      (6 ≤ tonalPitchClass note key && tonalPitchClass note key ≤ 12)
    exact ⟨hlow', hhigh'.trans (by decide)⟩

/-- **A note that is spelled in its own key is the note of its degree.** -/
theorem wholeNote_spell {key : Key} {scale : Scale} (h : SpellsIn key scale) :
    ∃ steps, scale.WholeSteps steps ∧ ∀ note, wholeNote steps key.toMidi (spell note key scale).degree
      (spell note key scale).octave (spell note key scale).modifier = note := by
  obtain ⟨hkey, hscale⟩ := h
  have hlow (note : Int) : 0 ≤ note % 12 := by omega
  have hhigh (note : Int) : note % 12 < 12 := by omega
  cases hchromatic : scale.isChromatic with
  | true =>
    refine ⟨_, Scale.wholeSteps_of_isChromatic hchromatic, ?_⟩
    intro note
    simp only [spell, hchromatic, if_true]
    rw [wholeNote_chromatic (hlow note) (hhigh note), hkey, middleC]
    omega
  | false =>
    refine ⟨_, hscale.resolve_left (by simp [hchromatic]), ?_⟩
    intro note
    obtain ⟨hlow', hhigh', hspells⟩ := spellStep_spells (hlow note) (hhigh note)
      (6 ≤ tonalPitchClass note key && tonalPitchClass note key ≤ 12)
    simp only [spell, hchromatic, Bool.false_eq_true, if_false]
    rw [wholeNote_major hlow' hhigh', hkey, middleC]
    omega

end Harmony

end NumberedMelody
