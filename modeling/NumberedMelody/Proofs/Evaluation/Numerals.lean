/-
  NumberedMelody/Proofs/Evaluation/Numerals.lean
  ==============================================
  **How a numeral answers.**  It plays the chord that it has kept for options
  that compare equal, or it is spelled out (`play_plays`); either way the chord
  is its own chord for some options, and the numeral changes in nothing but what
  it keeps.
-/
import NumberedMelody.Evaluation.KeptChord

namespace NumberedMelody.KeptNumeral

theorem keptFor_eq_some {k : KeptNumeral} {options : Options} {c : Chord} (h : k.keptFor options = some c) :
    ∃ since, k.kept = some (since, c) ∧ since == options := by
  simp only [keptFor, Option.map_eq_some_iff, Option.filter_eq_some_iff] at h
  obtain ⟨⟨since, c⟩, ⟨hkept, hsince⟩, rfl⟩ := h
  exact ⟨since, hkept, hsince⟩

/-! ### Answers -/

/-- A numeral answers with the chord that it has kept, or it is spelled out and
    keeps the chord, or it fails and stays as it is. -/
inductive Plays (k : KeptNumeral) (options : Options) : Except Failure Chord × KeptNumeral → Prop
  | kept {since : Options} {c : Chord} (hkept : k.kept = some (since, c)) (hsince : since == options) :
    Plays k options (.ok c, k)
  | spelled {c : Chord} (hchord : k.numeral.chordFor options = .ok c) : Plays k options (.ok c, k.keep options c hchord)
  | failed {failure : Failure} (hchord : k.numeral.chordFor options = .error failure) :
    Plays k options (.error failure, k)

theorem answerFor_of_kept {k : KeptNumeral} {options : Options} {c : Chord} (h : k.keptFor options = some c) :
    k.answerFor options = (.ok c, k) := by
  unfold answerFor
  split
  case h_1 hkept => rw [Option.some.inj (h.symm.trans hkept)]
  case h_2 hkept => cases h.symm.trans hkept

theorem answerFor_of_spelled {k : KeptNumeral} {options : Options} {c : Chord} (h : k.keptFor options = none)
    (hchord : k.numeral.chordFor options = .ok c) : k.answerFor options = (.ok c, k.keep options c hchord) := by
  unfold answerFor
  split
  case h_1 hkept => cases h.symm.trans hkept
  case h_2 =>
    split
    case h_1 c' hchord' =>
      obtain rfl := Except.ok.inj (hchord.symm.trans hchord')
      rfl
    case h_2 hfailed => cases hchord.symm.trans hfailed

theorem answerFor_of_failed {k : KeptNumeral} {options : Options} {failure : Failure} (h : k.keptFor options = none)
    (hchord : k.numeral.chordFor options = .error failure) : k.answerFor options = (.error failure, k) := by
  unfold answerFor
  split
  case h_1 hkept => cases h.symm.trans hkept
  case h_2 =>
    split
    case h_1 hspelled => cases hchord.symm.trans hspelled
    case h_2 failure' hchord' => rw [Except.error.inj (hchord.symm.trans hchord')]

theorem answerFor_plays (k : KeptNumeral) (options : Options) : k.Plays options (k.answerFor options) := by
  rcases hkept : k.keptFor options with _ | c
  · rcases hchord : k.numeral.chordFor options with failure | c
    · rw [answerFor_of_failed hkept hchord]
      exact .failed hchord
    · rw [answerFor_of_spelled hkept hchord]
      exact .spelled hchord
  · obtain ⟨since, hsome, hsince⟩ := keptFor_eq_some hkept
    rw [answerFor_of_kept hkept]
    exact .kept hsome hsince

variable {k : KeptNumeral} {context : Context}

theorem play_plays (k : KeptNumeral) (context : Context) :
    k.Plays (k.numeral.overrides.apply context.options) (k.play context) := k.answerFor_plays _

@[simp] theorem numeral_play (k : KeptNumeral) (context : Context) : (k.play context).2.numeral = k.numeral := by
  have hplays := k.play_plays context
  generalize k.play context = played at hplays
  cases hplays <;> rfl

theorem exists_chordFor_of_play {c : Chord} (h : (k.play context).1 = .ok c) :
    ∃ options, k.numeral.chordFor options = .ok c := by
  have hplays := k.play_plays context
  generalize k.play context = played at h hplays
  cases hplays with
  | kept hkept =>
    obtain rfl := Except.ok.inj h
    exact ⟨_, k.faithful hkept⟩
  | spelled hchord =>
    obtain rfl := Except.ok.inj h
    exact ⟨_, hchord⟩
  | failed => cases h

theorem chord_of_play_eq_error {failure : Failure} (h : (k.play context).1 = .error failure) :
    k.numeral.chord context.options = .error failure := by
  have hplays := k.play_plays context
  generalize k.play context = played at h hplays
  cases hplays with
  | kept | spelled => cases h
  | failed hchord =>
    obtain rfl := Except.error.inj h
    exact hchord

theorem play_fresh (r : RomanNumeral) (context : Context) :
    (play { numeral := r } context).1 = r.chord context.options := by
  have hplays := play_plays { numeral := r } context
  generalize play { numeral := r } context = played at hplays
  cases hplays with
  | kept hkept => cases hkept
  | spelled hchord => exact hchord.symm
  | failed hchord => exact hchord.symm

/-- Only the options of a context count. -/
theorem play_congr (k : KeptNumeral) {context context' : Context} (h : context.options = context'.options) :
    k.play context = k.play context' := by
  unfold play
  rw [h]

end NumberedMelody.KeptNumeral
