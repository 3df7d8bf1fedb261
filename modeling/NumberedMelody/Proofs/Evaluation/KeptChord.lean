/-
  NumberedMelody/Proofs/Evaluation/KeptChord.lean
  ===============================================
  **A kept chord does not show.**  Options that compare equal need not be the
  same options: a duration or a step of the scale may be the other zero.  The
  chord of a numeral is built from what such options have in common, so each
  answer of a numeral that keeps its chord compares equal to the answer of the
  numeral that has kept none (`answers_as_if_fresh`).
-/
import NumberedMelody.Proofs.Evaluation.Congruence
import NumberedMelody.Proofs.Evaluation.Numerals
import NumberedMelody.Proofs.Event.Sameness

namespace NumberedMelody

/-- The same failure, or chords that agree. -/
abbrev SameAnswer : Except Failure Chord → Except Failure Chord → Prop := SameResult Chord.Same

/-! ### The chord of a numeral -/

namespace RomanNumeral

theorem same_tone {options options' : Options} (h : options.Same options') (key : Key) {scale scale' : Scale}
    (hscale : scale.Same scale') (note : Int) :
    (tone options key scale note).Same (tone options' key scale' note) := by
  have hspell := Harmony.spell_eq hscale note key
  unfold tone
  rw [hspell]
  exact ⟨rfl, rfl, rfl, rfl, rfl, .some h.duration, rfl, .some (.refl _), rfl, rfl, .some hscale⟩

theorem sameAnswer_chordFor (r : RomanNumeral) {options options' : Options} (h : options.Same options') :
    SameAnswer (r.chordFor options) (r.chordFor options') := by
  have hscale := h.scale
  unfold chordFor
  rw [h.key]
  -- the scales differ at most in the signs of zeros, so both are there or neither is
  generalize options.scale = scale, options'.scale = scale' at hscale
  cases options'.key with
  | none => exact .error _
  | some key =>
    cases hscale with
    | none => exact .error _
    | some hscale =>
      cases Harmony.romanValue? r.symbols with
      | none => exact .error _
      | some degree =>
        refine .ok (Chord.Same.resolve_complete ?_ ?_ ?_ _ _)
        · rw [Harmony.degreeChord_eq hscale, hscale.span.round32, h.octave, h.modifier]
          refine ⟨rfl, rfl, ?_, rfl, .none⟩
          rw [List.forall₂_map_left_iff, List.forall₂_map_right_iff]
          exact List.forall₂_same.mpr fun note _ => same_tone h key hscale _
        · exact List.forall_mem_map.mpr fun note _ => complete_tone ..
        · exact List.forall_mem_map.mpr fun note _ => complete_tone ..

end RomanNumeral

/-! ### Answers from what is kept -/

namespace KeptNumeral

/-- An answer is the numeral spelled out for options that compare equal to those
    at hand. -/
theorem exists_chordFor_eq_play (k : KeptNumeral) (context : Context) :
    ∃ since : Options, since.Same (k.numeral.overrides.apply context.options) ∧
      (k.play context).1 = k.numeral.chordFor since := by
  have hplays := k.play_plays context
  generalize k.play context = played at hplays
  cases hplays with
  | kept hkept hsince => exact ⟨_, .of_beq hsince, (k.faithful hkept).symm⟩
  | spelled hchord => exact ⟨_, .refl _, hchord.symm⟩
  | failed hchord => exact ⟨_, .refl _, hchord.symm⟩

/-- An answer is what the numeral itself comes to. -/
theorem sameAnswer_play (k : KeptNumeral) (context : Context) :
    SameAnswer (k.play context).1 (k.numeral.chord context.options) := by
  obtain ⟨since, hsince, hplay⟩ := k.exists_chordFor_eq_play context
  rw [hplay]
  exact k.numeral.sameAnswer_chordFor hsince

/-- Numerals that are written alike answer alike, whatever they keep. -/
theorem sameAnswer_of_numeral_eq {k k' : KeptNumeral} (h : k.numeral = k'.numeral) (context : Context) :
    SameAnswer (k.play context).1 (k'.play context).1 := by
  obtain ⟨since, hsince, hplay⟩ := k.exists_chordFor_eq_play context
  obtain ⟨since', hsince', hplay'⟩ := k'.exists_chordFor_eq_play context
  rw [← h] at hsince' hplay'
  rw [hplay, hplay']
  exact k.numeral.sameAnswer_chordFor (hsince.common hsince')

theorem sameAnswer_answers (k : KeptNumeral) (contexts : List Context) :
    List.Forall₂ (fun context answer => SameAnswer answer (k.numeral.chord context.options)) contexts
      (k.answers contexts) := by
  induction contexts generalizing k with
  | nil => exact .nil
  | cons context contexts ih =>
    have hrest := ih (k.play context).2
    rw [numeral_play] at hrest
    exact .cons (k.sameAnswer_play context) hrest

/-- **A kept chord does not show.**  In whatever contexts a numeral is played one
    after the other, each answer is the one that it would give there with nothing
    kept, and that is the chord it is spelled out as (`play_fresh`). -/
theorem answers_as_if_fresh (r : RomanNumeral) (contexts : List Context) :
    List.Forall₂ (fun context answer => SameAnswer answer (play { numeral := r } context).1) contexts
      (answers { numeral := r } contexts) := by
  simp only [play_fresh]
  exact sameAnswer_answers { numeral := r } contexts

-- A chord kept for one zero answers for the other, so no more than `==` can be asked for.
example : (keptFor (play { numeral := { text := "i", symbols := "i" } } (.ofOptions { duration := 0.0 })).2
    { duration := -0.0 }).isSome = true := rfl

end KeptNumeral

end NumberedMelody
