/-
  NumberedMelody/Proofs/Melody/KeyNames.lean
  ==========================================
  **Keys by name and by note.**  A note name and the MIDI note that it stands for
  are at the same place on the line of fifths, so that notes are spelled the same
  in either key and patterns are played the same.  A text that is no note name
  stands for middle C, but on the line of fifths its first letters are read all
  the same: unless they mean C, notes are spelled otherwise than in the key of
  middle C (`key_names_interchangeable`).
-/
import Mathlib.Logic.Equiv.Basic
import NumberedMelody.Proofs.Harmony.Octaves
import NumberedMelody.Proofs.Melody.Renaming

namespace NumberedMelody

namespace Harmony

/-! ### Places on the line of fifths -/

variable {key key' : Key}

/-- Keys that are the same note of an octave are at the same place. -/
theorem fifthsOfKey_eq_of_modEq (hkey : IsNote key) (hkey' : IsNote key')
    (h : key.toMidi ≡ key'.toMidi [ZMOD 12]) : fifthsOfKey key = fifthsOfKey key' := by
  obtain ⟨hlow, hhigh, hplace⟩ := fifthsOfKey_spec key
  obtain ⟨hlow', hhigh', hplace'⟩ := fifthsOfKey_spec key'
  have hsame : 7 * fifthsOfKey key ≡ 7 * fifthsOfKey key' [ZMOD 12] :=
    ((hplace hkey).trans h).trans (hplace' hkey').symm
  simp only [Int.ModEq] at hsame
  omega

/-- A key name that is at the place of its note: a note name, or a text whose first
    letters mean C if they mean anything. -/
def Placed (name : String) : Prop := IsNote (.name name) ∨ fifthsOfName name = 0

/-- A text that is no note name stands for middle C. -/
theorem midiOfName_of_not_isNote {name : String} (h : ¬IsNote (.name name)) : midiOfName name = middleC := by
  have hunread : noteName? (Text.trim name.toList) = none := by simpa [IsNote] using h
  simp only [midiOfName, hunread]

theorem fifthsOfKey_midi_eq_iff (name : String) :
    fifthsOfKey (.name name) = fifthsOfKey (.midi (midiOfName name)) ↔ Placed name := by
  by_cases hnote : IsNote (.name name)
  · exact iff_of_true (fifthsOfKey_eq_of_modEq hnote trivial rfl) (.inl hnote)
  · rw [midiOfName_of_not_isNote hnote, Placed]
    exact ⟨.inr, fun h => h.resolve_left hnote⟩

/-- The lowest tonal pitch class of a key tells its place. -/
theorem tonalPitchClass_eq_iff :
    (∀ note, tonalPitchClass note key = tonalPitchClass note key') ↔ fifthsOfKey key = fifthsOfKey key' := by
  constructor
  · intro h
    obtain ⟨hlow, hhigh, -⟩ := fifthsOfKey_spec key
    obtain ⟨hlow', hhigh', -⟩ := fifthsOfKey_spec key'
    -- seven fifths are a semitone, so this note is the lowest one in the window of its key
    have hlowest := h (7 * (fifthsOfKey key - 15))
    have hlowest' := h (7 * (fifthsOfKey key' - 15))
    rw [tonalPitchClass_of_bounds (by omega) (by omega), tonalPitchClass_of_bounds (by omega) (by omega)]
      at hlowest hlowest'
    omega
  · intro h note
    simp only [tonalPitchClass, h]

/-! ### Spelled notes -/

/-- A note between two degrees has a flat just when its tonal pitch class is a flat one. -/
theorem spell_flat_iff {scale : Scale} (hscale : scale.isChromatic = false) {note : Int} (hnote : note = 3 ∨ note = 8)
    (key : Key) :
    (spell note key scale).modifier = -1 ↔ 6 ≤ tonalPitchClass note key ∧ tonalPitchClass note key ≤ 12 := by
  have hstep : ∀ flat, (spellStep (note % 12) flat).2 = -1 ↔ flat = true := by
    rcases hnote with rfl | rfl <;> decide
  simp only [spell, hscale, Bool.false_eq_true, if_false, hstep, Bool.and_eq_true, decide_eq_true_eq]

/-- In the key of C the note between the second and the third degree is flat and
    the one between the fifth and the sixth is sharp; in no other key are both. -/
theorem fifthsOfKey_eq_zero {scale : Scale} (hscale : scale.isChromatic = false) (hC : fifthsOfKey key' = 0)
    (h : ∀ note, spell note key scale = spell note key' scale) : fifthsOfKey key = 0 := by
  obtain ⟨hlow, hhigh, -⟩ := fifthsOfKey_spec key
  have hthird := spell_flat_iff hscale (.inl rfl) key
  have hsixth := spell_flat_iff hscale (.inr rfl) key
  rw [h 3, spell_flat_iff hscale (.inl rfl) key'] at hthird
  rw [h 8, spell_flat_iff hscale (.inr rfl) key'] at hsixth
  rw [tonalPitchClass_of_bounds (by decide) (by decide), tonalPitchClass_of_bounds (by decide) (by decide), hC]
    at hthird hsixth
  omega

theorem spell_eq_iff (name : String) {scale : Scale} (hscale : scale.isChromatic = false) :
    (∀ note, spell note (.name name) scale = spell note (.midi (midiOfName name)) scale) ↔ Placed name := by
  constructor
  · intro h
    by_cases hnote : IsNote (.name name)
    · exact .inl hnote
    · rw [midiOfName_of_not_isNote hnote] at h
      exact .inr (fifthsOfKey_eq_zero hscale rfl h)
  · intro h note
    have hplace := tonalPitchClass_eq_iff.mpr ((fifthsOfKey_midi_eq_iff name).mpr h) note
    unfold spell
    rw [hplace]

end Harmony

open Harmony

/-- A name and its note in place of each other. -/
def Renaming.ofKeyName {name : String} (h : Placed name) : Renaming where
  key := Equiv.swap (.name name) (.midi (midiOfName name))
  scale := id
  beq_key k k' := by rw [Bool.eq_iff_iff, beq_iff_eq, beq_iff_eq, (Equiv.injective _).eq_iff]
  beq_scale _ _ := rfl
  toMidi_key := Equiv.apply_swap_eq_self rfl
  fifthsOfKey_key := Equiv.apply_swap_eq_self ((fifthsOfKey_midi_eq_iff name).mpr h)
  intervals_scale _ := rfl
  isChromatic_scale _ := rfl

/-- **A key may be given by name or by its note** if its name is a note name.  A
    text that is none stands for middle C, but its first letters are read as a
    place on the line of fifths.  Unless they mean C, some notes have other tonal
    pitch classes in either key, and over every scale but the chromatic one some
    are spelled otherwise.  But for such texts all notes have the same tonal pitch
    class, are spelled the same over every scale, and every pattern is played the
    same, with the same degrees, octaves and accidentals in its numerals. -/
theorem key_names_interchangeable (name : String) :
    ((∀ note, tonalPitchClass note (.name name) = tonalPitchClass note (.midi (midiOfName name))) ↔ Placed name) ∧
    (∀ scale : Scale,
      (∀ note, spell note (.name name) scale = spell note (.midi (midiOfName name)) scale) ↔
        scale.isChromatic = true ∨ Placed name) ∧
    (Placed name → ∀ (text : String) (options : Options) (n : Nat),
      played text { options with key := some (.name name) } n =
        played text { options with key := some (.midi (midiOfName name)) } n) := by
  refine ⟨tonalPitchClass_eq_iff.trans (fifthsOfKey_midi_eq_iff name), ?_, ?_⟩
  · intro scale
    rcases hscale : scale.isChromatic with _ | _
    · simpa using spell_eq_iff name hscale
    · refine iff_of_true ?_ (.inl rfl)
      intro note
      simp only [spell, hscale, if_true]
  · intro hplaced text options n
    have hexchanged : (Renaming.ofKeyName hplaced).options { options with key := some (.name name) } =
        { options with key := some (.midi (midiOfName name)) } := by
      simp only [Renaming.options, Renaming.ofKeyName, Option.map_some, Equiv.swap_apply_left, Option.map_id_fun, id]
    rw [← hexchanged, played_renamed]

/-- Blanks, a small letter and a low octave make no difference. -/
theorem flatKey_interchangeable :
    Placed " bb-1 " ∧ midiOfName " bb-1 " = 10 ∧
    (∀ note, tonalPitchClass note (.name " bb-1 ") = tonalPitchClass note (.midi (midiOfName " bb-1 "))) ∧
    played "iv%1 <v vi>" { key := some (.name " bb-1 ") } 4 =
      played "iv%1 <v vi>" { key := some (.midi (midiOfName " bb-1 ")) } 4 := by
  obtain ⟨hclass, -, hplayed⟩ := key_names_interchangeable " bb-1 "
  have hnote : Placed " bb-1 " := .inl (by rw [IsNote]; decide +kernel)
  exact ⟨hnote, by decide +kernel, hclass.mpr hnote, hplayed hnote "iv%1 <v vi>" {} 4⟩

/-- A text that is no note name sounds at middle C and is spelled as if in F. -/
theorem unknownKey_not_middleC :
    midiOfName "foo" = middleC ∧
    tonalPitchClass 68 (.name "foo") = 10 ∧ tonalPitchClass 68 (.midi (midiOfName "foo")) = 22 ∧
    (spell 68 (.name "foo") (.named Scale.ionian)).text = "b5" ∧
    (spell 68 (.midi (midiOfName "foo")) (.named Scale.ionian)).text = "#4" := by
  decide +kernel

end NumberedMelody
