/-
  NumberedMelody/Proofs/Evaluation/Tuning.lean
  ============================================
  **Where notes come from.**  A note is computed from a degree, or fixed by a
  roman numeral whose degree only spells it, and inversions move it by octaves
  without computing it again.  Every tone that evaluation yields is of one of
  these kinds (`Pitch.Heard`, maintained by `tuning_kept`), with no more octaves
  than the pattern has inversions.

  Arithmetic computes the note of a tone anew from its degree.  That is the note
  it has already (`Pitch.InTune`) if it came from a degree and was not moved; it
  is so after moves over whole steps (`MovedBy.inTune`), and of a numeral in the
  key and scale that notes are spelled in (`Heard.inTune`).
-/
import NumberedMelody.Proofs.Evaluation.EagerVariables
import NumberedMelody.Proofs.Evaluation.Layers
import NumberedMelody.Proofs.Evaluation.Product
import NumberedMelody.Proofs.Harmony.WholeSteps

namespace NumberedMelody

open NumberedMelody.Random (Source)
open Node (unplayedAll)

/-! ### Moves by octaves -/

namespace Pitch

/-- The note is the one that its degree has in its key and scale. -/
def InTune (p : Pitch) : Prop := p.note = p.noteAnew

variable {p base : Pitch} {o : Options} {octaves : Nat} {direction : Int}

theorem inTune_resolve (h : p.note = none) (o : Options) : (p.resolve o).InTune := note_tune (p := p.adopt o) h false

theorem inTune_generated (degree : Int) (text : String) (overrides : Overrides) (o : Options) :
    (generated degree text overrides o).InTune := inTune_resolve rfl o

/-- What is moved when a tone is moved by an octave of its scale. -/
def octaveShift (p : Pitch) (direction : Int) : Int :=
  Binary64.round32 ((p.scale.map Scale.span).getD 12.0 * Float.ofInt direction)

theorem shiftOctave_eq (p : Pitch) (direction : Int) :
    ∃ frequency, p.shiftOctave direction =
      { p with
        octave := some (p.octave.getD 0 + direction)
        note := p.note.map (· + p.octaveShift direction)
        frequency } := by
  unfold shiftOctave
  cases hnote : p.note with
  | none => exact ⟨p.frequency, by simp⟩
  | some note => exact ⟨_, rfl⟩

/-- A pitch that is another one, so many times moved by an octave in one
    direction; it may last differently. -/
structure MovedBy (base : Pitch) (octaves : Nat) (direction : Int) (p : Pitch) : Prop where
  key : p.key = base.key
  scale : p.scale = base.scale
  degree : p.degree = base.degree
  modifier : p.modifier = base.modifier
  octave : p.octave.getD 0 = base.octave.getD 0 + octaves * direction
  note : p.note = base.note.map (· + octaves * base.octaveShift direction)

namespace MovedBy

theorem unmoved (p : Pitch) (direction : Int) : p.MovedBy 0 direction p := by
  refine ⟨rfl, rfl, rfl, rfl, ?_, ?_⟩
  · simp
  · simp

theorem shift (h : base.MovedBy octaves direction p) :
    base.MovedBy (octaves + 1) direction (p.shiftOctave direction) := by
  have hshift : p.octaveShift direction = base.octaveShift direction := by
    unfold octaveShift
    rw [h.scale]
  obtain ⟨frequency, heq⟩ := p.shiftOctave_eq direction
  rw [heq]
  refine ⟨h.key, h.scale, h.degree, h.modifier, ?_, ?_⟩
  · simp only [Option.getD_some, h.octave, Nat.cast_succ]
    ring
  · simp only [h.note, hshift, Option.map_map]
    congr 1
    funext note
    simp only [Function.comp_apply, Nat.cast_succ]
    ring

theorem lasting (h : base.MovedBy octaves direction p) (d : Option Float) :
    base.MovedBy octaves direction { p with duration := d } :=
  ⟨h.key, h.scale, h.degree, h.modifier, h.octave, h.note⟩

end MovedBy

/-! ### Whole steps -/

/-- The note of the degree over integer steps, so many octaves away. -/
def wholeNote (p : Pitch) (key : Key) (steps : List Int) (octaves : Int) : Int :=
  Harmony.wholeNote steps key.toMidi p.degree (p.octave.getD 0 + octaves) (p.modifier.getD 0)

theorem wholeNote_add (p : Pitch) (key : Key) (steps : List Int) (octaves more : Int) :
    p.wholeNote key steps (octaves + more) = p.wholeNote key steps octaves + more * steps.sum := by
  unfold wholeNote
  rw [← Int.add_assoc, Harmony.wholeNote_octave]

/-- The scale of the pitch is one of whole steps, and 32 bits are enough for
    what its note is computed from and for the note itself, as many octaves
    around it as it may have been moved. -/
structure OnSteps (p : Pitch) (key : Key) (scale : Scale) (steps : List Int) (reach : Nat) : Prop where
  inKey : p.key = some key
  inScale : p.scale = some scale
  whole : scale.WholeSteps steps
  root : fits32 key.toMidi = true
  degree : fits32 p.degree = true
  modifier : fits32 (p.modifier.getD 0) = true
  octave : ∀ octaves : Int, octaves.natAbs ≤ reach → fits32 (p.octave.getD 0 + octaves) = true
  note : ∀ octaves : Int, octaves.natAbs ≤ reach → fits32 (p.wholeNote key steps octaves) = true

variable {key : Key} {scale : Scale} {steps : List Int} {reach : Nat}

/-- What is computed for a pitch, so many octaves away from one over whole steps. -/
theorem OnSteps.noteAnew_eq (h : p.OnSteps key scale steps reach) {octaves : Int} (hoctaves : octaves.natAbs ≤ reach)
    (hkey : base.key = p.key) (hscale : base.scale = p.scale) (hdegree : base.degree = p.degree)
    (hmodifier : base.modifier = p.modifier) (hoctave : base.octave.getD 0 = p.octave.getD 0 + octaves) :
    base.noteAnew = some (p.wholeNote key steps octaves) := by
  have hwhole := Harmony.isWhole_exactNote h.whole h.root h.degree (h.octave octaves hoctaves) h.modifier
  unfold noteAnew
  rw [hkey, h.inKey, hscale, h.inScale]
  simp only [hdegree, hmodifier, hoctave, hwhole.floor32_eq]
  exact congrArg some (clamp32_of_fits32 (h.note octaves hoctaves))

theorem octaveShift_whole (h : p.scale = some scale) (hsteps : scale.WholeSteps steps)
    (hdirection : direction.natAbs ≤ 1) : p.octaveShift direction = direction * steps.sum := by
  have hbounded := (Harmony.natAbs_sum_le steps).trans hsteps.bounded
  have hproduct : (steps.sum * direction).natAbs ≤ 2 ^ 20 := by
    rw [Int.natAbs_mul]
    exact (Nat.mul_le_mul_left _ hdirection).trans (by omega)
  have hfits : fits32 (steps.sum * direction) = true := fits32_of_natAbs_lt (by omega)
  have hspan : Binary64.IsWhole scale.span steps.sum := .sum hsteps.whole (by have := hsteps.bounded; omega)
  have hdirection' : Binary64.IsWhole (Float.ofInt direction) direction := .ofInt (by omega)
  unfold octaveShift
  rw [h, Option.map_some, Option.getD_some, (hspan.mul hdirection' (by omega)).round32_eq, clamp32_of_fits32 hfits]
  exact Int.mul_comm _ _

/-- **Over whole steps, moves by octaves keep a pitch in tune.** -/
theorem MovedBy.inTune (h : base.MovedBy octaves direction p) (hsteps : p.OnSteps key scale steps reach)
    (hdirection : direction.natAbs ≤ 1)
    (hbase : base.note = some (p.wholeNote key steps (-(octaves * direction)))) : p.InTune := by
  have hnote : p.wholeNote key steps (-(octaves * direction)) + octaves * (direction * steps.sum) =
      p.wholeNote key steps 0 := by
    rw [← Int.mul_assoc, ← wholeNote_add, Int.add_left_neg]
  have hanew : p.noteAnew = some (p.wholeNote key steps 0) :=
    hsteps.noteAnew_eq (Nat.zero_le reach) rfl rfl rfl rfl (Int.add_zero _).symm
  unfold InTune
  rw [hanew, h.note, hbase, octaveShift_whole (h.scale ▸ hsteps.inScale) hsteps.whole hdirection, Option.map_some,
    hnote]

end Pitch

/-! ### Chords and numerals -/

theorem natAbs_sign_le (n : Int) : n.sign.natAbs ≤ 1 := by
  rw [Int.natAbs_sign]
  split <;> omega

/-- Every tone of a resolved chord is one of its tones, resolved and moved by the inversions. -/
theorem Chord.exists_movedBy (c : Chord) (o : Options) :
    ∀ tone ∈ (c.resolve o).tones, ∃ written ∈ c.tones, ∃ octaves ≤ (c.inversions.getD 0).natAbs,
      (written.resolve (c.overrides.apply o)).MovedBy octaves (c.inversions.getD 0).sign tone := by
  refine c.forall_mem_resolve_turned
    (P := fun turns tone => ∃ written ∈ c.tones, ∃ octaves ≤ turns,
      (written.resolve (c.overrides.apply o)).MovedBy octaves (c.inversions.getD 0).sign tone) o ?_ ?_ ?_
  · rintro turns tone ⟨written, hwritten, octaves, hoctaves, hmoved⟩
    exact ⟨written, hwritten, octaves, by omega, hmoved⟩
  · rintro turns tone ⟨written, hwritten, octaves, hoctaves, hmoved⟩
    exact ⟨written, hwritten, octaves + 1, by omega, hmoved.shift⟩
  · intro tone htone
    exact ⟨tone, htone, 0, Nat.le_refl 0, .unmoved _ _⟩

namespace Pitch

variable {p : Pitch}

/-- Some numeral with at most so many inversions sounds this tone. -/
def OfNumeral (inversions : Nat) (p : Pitch) : Prop :=
  ∃ (r : RomanNumeral) (o : Options) (c : Chord) (tone : Pitch) (d : Option Float),
    (r.inversions.getD 0).natAbs ≤ inversions ∧ r.chordFor o = .ok c ∧ tone ∈ c.tones ∧ p = { tone with duration := d }

/-- A tone of a numeral is a spelled note, moved by the inversions. -/
theorem OfNumeral.exists_movedBy {inversions : Nat} (h : p.OfNumeral inversions) :
    ∃ (o : Options) (key : Key) (scale : Scale) (note : Int) (octaves : Nat) (direction : Int),
      (RomanNumeral.tone o key scale note).MovedBy octaves direction p ∧ octaves ≤ inversions ∧
        direction.natAbs ≤ 1 := by
  obtain ⟨r, o, c, tone, d, hinversions, hc, htone, rfl⟩ := h
  obtain ⟨key, scale, degree, shift, -, rfl⟩ := RomanNumeral.chordFor_eq_ok hc
  obtain ⟨written, hwritten, octaves, hoctaves, hmoved⟩ := Chord.exists_movedBy _ _ tone htone
  obtain ⟨note, -, rfl⟩ := List.mem_map.mp hwritten
  rw [(RomanNumeral.complete_tone _ key scale (note + shift)).resolve_eq] at hmoved
  exact ⟨_, key, scale, note + shift, octaves, _, hmoved.lasting d, hoctaves.trans hinversions, natAbs_sign_le _⟩

/-- Some pitch that is in tune, so many times moved by an octave and at least once, is this tone. -/
def OfInversion (inversions : Nat) (p : Pitch) : Prop :=
  ∃ (base : Pitch) (octaves : Nat) (direction : Int), base.InTune ∧ base.MovedBy octaves direction p ∧
    1 ≤ octaves ∧ octaves ≤ inversions ∧ direction.natAbs ≤ 1

end Pitch

/-! ### Where tones come from -/

/-- What patterns make use of: numerals or none, and the most inversions of a
    chord or a numeral. -/
structure Vocabulary where
  numerals : Bool
  inversions : Nat

namespace Pitch

variable {v : Vocabulary} {p : Pitch}

/-- A tone that comes from a degree, possibly by inversions, or from a numeral. -/
inductive Heard (v : Vocabulary) (p : Pitch) : Prop where
  | degree {base : Pitch} {octaves : Nat} {direction : Int} (inTune : base.InTune)
    (moved : base.MovedBy octaves direction p) (few : octaves ≤ v.inversions) (step : direction.natAbs ≤ 1) :
    Heard v p
  | numeral (numerals : v.numerals = true) (sounds : p.OfNumeral v.inversions) : Heard v p

/-- If the tone may have been moved by inversions, its scale is one of whole
    steps; if it may be a tone of a numeral, it is in the key and scale that
    numerals are spelled in. -/
structure Reliable (v : Vocabulary) (p : Pitch) : Prop where
  inverted : p.OfInversion v.inversions → ∃ key scale steps, p.OnSteps key scale steps v.inversions
  spelled : v.numerals = true → p.OfNumeral v.inversions →
    ∃ key scale steps, p.OnSteps key scale steps v.inversions ∧ Harmony.SpellsIn key scale

theorem InTune.unmoved {base : Pitch} {direction : Int} (h : base.InTune) (hmoved : base.MovedBy 0 direction p) :
    p.InTune := by
  obtain ⟨hkey, hscale, hdegree, hmodifier, hoctave, hnote⟩ := hmoved
  have hsame : p.note = base.note := by simpa using hnote
  unfold InTune noteAnew at *
  rw [hsame, h, hkey, hscale, hdegree, hmodifier]
  simp only [hoctave, Nat.cast_zero, Int.zero_mul, Int.add_zero]

theorem natAbs_octaves_le {octaves reach : Nat} {direction : Int} (h : octaves ≤ reach)
    (hdirection : direction.natAbs ≤ 1) : (-((octaves : Int) * direction)).natAbs ≤ reach := by
  rw [Int.natAbs_neg, Int.natAbs_mul, Int.natAbs_natCast]
  exact (Nat.mul_le_mul_left _ hdirection).trans (by omega)

/-- **A tone is in tune wherever it may have come from.** -/
theorem Heard.inTune (h : p.Heard v) (hreliable : p.Reliable v) : p.InTune := by
  cases h with
  | @degree base octaves direction htune hmoved hfew hstep =>
    -- a pitch that was not moved is in tune over any scale, fractional steps included
    by_cases hzero : octaves = 0
    · subst hzero
      exact htune.unmoved hmoved
    · obtain ⟨key, scale, steps, hsteps⟩ :=
        hreliable.inverted ⟨base, octaves, direction, htune, hmoved, by omega, hfew, hstep⟩
      -- the base is as many octaves away from the tone, and in the same key and scale
      refine hmoved.inTune hsteps hstep (htune.trans ?_)
      refine hsteps.noteAnew_eq (natAbs_octaves_le hfew hstep) hmoved.key.symm hmoved.scale.symm hmoved.degree.symm
        hmoved.modifier.symm ?_
      rw [hmoved.octave]
      ring
  | numeral hnumerals hsounds =>
    obtain ⟨key, scale, steps, hsteps, hspells⟩ := hreliable.spelled hnumerals hsounds
    obtain ⟨o, key', scale', note, octaves, direction, hmoved, hfew, hstep⟩ := hsounds.exists_movedBy
    obtain rfl : key = key' := Option.some.inj (hsteps.inKey.symm.trans hmoved.key)
    obtain rfl : scale = scale' := Option.some.inj (hsteps.inScale.symm.trans hmoved.scale)
    obtain ⟨steps', hsteps', hnote⟩ := Harmony.wholeNote_spell hspells
    obtain rfl := hsteps.whole.unique hsteps'
    -- the spelled degree stands for the note before the inversions moved it
    refine hmoved.inTune hsteps hstep (congrArg some ((hnote note).symm.trans ?_))
    have hoctave : p.octave.getD 0 + -(octaves * direction) = (Harmony.spell note key scale).octave := by
      rw [hmoved.octave]
      exact Int.add_neg_cancel_right _ _
    unfold wholeNote
    rw [hoctave, hmoved.degree, hmoved.modifier]
    rfl

/-! ### Reliable tones -/

/-- Without inversions and numerals every tone is reliable. -/
theorem reliable_of_plain (hnumerals : v.numerals = false) (hinversions : v.inversions = 0) (p : Pitch) :
    p.Reliable v := by
  constructor
  · rintro ⟨base, octaves, direction, -, -, hsome, hfew, -⟩
    omega
  · intro hsome
    rw [hnumerals] at hsome
    cases hsome

theorem Reliable.of_onSteps {key : Key} {scale : Scale} {steps : List Int}
    (h : p.OnSteps key scale steps v.inversions) (hspells : v.numerals = true → Harmony.SpellsIn key scale) :
    p.Reliable v :=
  ⟨fun _ => ⟨key, scale, steps, h⟩, fun hnumerals _ => ⟨key, scale, steps, h, hspells hnumerals⟩⟩

/-- Over steps of some octaves in all, 20 bits for everything else are enough. -/
theorem onSteps_of_small {key : Key} {scale : Scale} {steps : List Int} {reach : Nat} (hkey : p.key = some key)
    (hscale : p.scale = some scale) (hsteps : scale.WholeSteps steps) (hspan : (steps.map Int.natAbs).sum ≤ 2 ^ 7)
    (hroot : key.toMidi.natAbs ≤ 2 ^ 20) (hdegree : p.degree.natAbs ≤ 2 ^ 20)
    (hoctave : (p.octave.getD 0).natAbs ≤ 2 ^ 20) (hmodifier : (p.modifier.getD 0).natAbs ≤ 2 ^ 20)
    (hreach : reach ≤ 2 ^ 20) : p.OnSteps key scale steps reach := by
  refine ⟨hkey, hscale, hsteps, fits32_of_natAbs_lt (by omega), fits32_of_natAbs_lt (by omega),
    fits32_of_natAbs_lt (by omega), ?_, ?_⟩
  · intro octaves hoctaves
    exact fits32_of_natAbs_lt (by omega)
  · intro octaves hoctaves
    have hwithin := (Harmony.natAbs_sum_le _).trans
      ((Harmony.sum_natAbs_take_le steps (p.degree % (steps.length : Int)).toNat).trans hspan)
    have hquotient := (Int.natAbs_ediv_le_natAbs p.degree (steps.length : Int)).trans hdegree
    have hfolded := Harmony.natAbs_add_le_of_le
      (Harmony.natAbs_add_le_of_le hoctave (hoctaves.trans hreach)) hquotient
    have hlifted : ((p.octave.getD 0 + octaves + p.degree / (steps.length : Int)) * steps.sum).natAbs ≤
        (2 ^ 20 + 2 ^ 20 + 2 ^ 20) * 2 ^ 7 := by
      rw [Int.natAbs_mul]
      exact Nat.mul_le_mul hfolded ((Harmony.natAbs_sum_le steps).trans hspan)
    have hnote := Harmony.natAbs_add_le_of_le
      (Harmony.natAbs_add_le_of_le (Harmony.natAbs_add_le_of_le hroot hwithin) hlifted) hmodifier
    exact fits32_of_natAbs_lt (hnote.trans_lt (by decide))

/-- In the major scale on middle C, and nothing large. -/
def isNearMiddleC (p : Pitch) : Bool :=
  (p.key.any fun key => key.toMidi = Harmony.middleC) &&
    (match p.scale with
      | some (.named name) => name = Scale.ionian
      | _ => false) &&
    decide (p.degree.natAbs ≤ 2 ^ 20) && decide ((p.octave.getD 0).natAbs ≤ 2 ^ 20) &&
      decide ((p.modifier.getD 0).natAbs ≤ 2 ^ 20)

/-- **Around middle C, in the major scale, every tone is reliable.** -/
theorem reliable_of_isNearMiddleC (hinversions : v.inversions ≤ 2 ^ 20) (h : p.isNearMiddleC = true) :
    p.Reliable v := by
  simp only [isNearMiddleC, Bool.and_eq_true, decide_eq_true_eq] at h
  obtain ⟨⟨⟨⟨hkey, hscale⟩, hdegree⟩, hoctave⟩, hmodifier⟩ := h
  obtain ⟨key, hkey, hmiddle⟩ := Option.any_eq_true _ _ |>.mp hkey
  replace hmiddle := of_decide_eq_true hmiddle
  split at hscale
  · next name hname =>
    obtain rfl := of_decide_eq_true hscale
    have hroot : key.toMidi.natAbs ≤ 2 ^ 20 := by
      rw [hmiddle]
      decide
    have hsteps := onSteps_of_small hkey hname Scale.wholeSteps_ionian (by decide) hroot hdegree hoctave hmodifier
      hinversions
    exact .of_onSteps hsteps fun _ => ⟨hmiddle, .inr Scale.wholeSteps_ionian⟩
  · cases hscale

theorem Heard.of_inTune (h : p.InTune) : p.Heard v := .degree h (.unmoved p 1) (Nat.zero_le _) (Nat.le_refl 1)

theorem Heard.lasting (h : p.Heard v) (d : Option Float) : ({ p with duration := d } : Pitch).Heard v := by
  cases h with
  | degree htune hmoved hfew hstep => exact .degree htune (hmoved.lasting d) hfew hstep
  | numeral hnumerals hsounds =>
    obtain ⟨r, o, c, tone, d', hinversions, hc, htone, rfl⟩ := hsounds
    exact .numeral hnumerals ⟨r, o, c, tone, d, hinversions, hc, htone, rfl⟩

theorem heard_of_derived {o : Options} (h : ListArithmetic.Derived o p) : p.Heard v := by
  obtain ⟨template, degree, rfl⟩ := h
  exact .of_inTune (ListArithmetic.note_derive template degree o)

end Pitch

/-! ### What evaluation yields -/

namespace Event

variable {v : Vocabulary} {e : Event} {o : Options}

/-- The event is as it is written: no note is set, and there are no more inversions. -/
def Unplayed (v : Vocabulary) : Event → Prop
  | .pitch p => p.note = none
  | .chord c => (∀ tone ∈ c.tones, tone.note = none) ∧ (c.inversions.getD 0).natAbs ≤ v.inversions
  | _ => True

/-- The event is resolved, and it is known where its tones come from. -/
structure Played (v : Vocabulary) (e : Event) : Prop where
  resolved : e.Resolved
  heard : ∀ tone ∈ ListArithmetic.tonesOf e, tone.Heard v

theorem Unplayed.against (h : e.Unplayed v) (ho : o.Tonal) : (e.against o).Played v := by
  refine ⟨e.resolved_against ho, ?_⟩
  intro tone htone
  cases e with
  | pitch p =>
    obtain rfl := List.mem_singleton.mp htone
    exact .of_inTune (Pitch.inTune_resolve h o)
  | chord c =>
    obtain ⟨written, hwritten, octaves, hoctaves, hmoved⟩ := c.exists_movedBy o tone htone
    exact .degree (Pitch.inTune_resolve (h.1 written hwritten) _) hmoved (hoctaves.trans h.2) (natAbs_sign_le _)
  | _ => cases htone

theorem tonesOf_retimed (e : Event) : ListArithmetic.tonesOf e.retimed = ListArithmetic.tonesOf e := by
  cases e <;> rfl

theorem Played.against (h : e.Played v) (ho : o.Tonal) : (e.against o).Played v := by
  refine ⟨e.resolved_against ho, ?_⟩
  rw [h.resolved.against_eq o, tonesOf_retimed]
  exact h.heard

theorem Played.setDuration (h : e.Played v) (d : Float) : (e.setDuration d).Played v :=
  ⟨h.resolved.setDuration d, ListArithmetic.tones_setDuration (fun _ d htone => htone.lasting d) h.heard d⟩

theorem Played.pitch {p : Pitch} (hcomplete : p.Complete) (h : p.Heard v) : (Event.pitch p).Played v := by
  refine ⟨hcomplete, ?_⟩
  intro tone htone
  obtain rfl := List.mem_singleton.mp htone
  exact h

/-- Arithmetic and expressions compute all notes anew. -/
theorem heard_deriveChord {tones : List Pitch} (h : ∀ tone ∈ tones, ListArithmetic.Derived o tone) :
    ∀ tone ∈ ListArithmetic.tonesOf (ListArithmetic.deriveChord tones o), tone.Heard v := by
  have hresolved : ∀ tone ∈ tones, tone.resolve o = tone := by
    intro tone htone
    obtain ⟨template, degree, rfl⟩ := h tone htone
    exact ListArithmetic.resolve_derive template degree o
  intro tone htone
  rw [ListArithmetic.deriveChord_eq hresolved] at htone
  exact Pitch.heard_of_derived (h tone (mem_sortTones.mp htone))

end Event

namespace ListArithmetic

variable {v : Vocabulary} {o : Options} {e : Event}

theorem played_combinePair {op : Arithmetic} {l r : Event} (ho : o.Tonal) (h : combinePair op o l r = .ok e) :
    e.Played v := by
  refine ⟨resolved_combinePair ho h, ?_⟩
  rcases combinePair_cases h with ⟨p, hp, rfl⟩ | ⟨tones, htones, -, rfl⟩
  · intro tone htone
    obtain rfl := List.mem_singleton.mp htone
    exact Pitch.heard_of_derived hp
  · exact Event.heard_deriveChord htones

theorem played_mapEvent {expr : Expr} {e' : Event} (ho : o.Tonal) (he : e.Played v) (h : mapEvent expr o e = .ok e') :
    e'.Played v := by
  refine ⟨resolved_mapEvent ho he.resolved h, ?_⟩
  rcases mapEvent_cases h with ⟨p, hp, rfl⟩ | ⟨tones, -, htones, -, rfl⟩ | rfl
  · intro tone htone
    obtain rfl := List.mem_singleton.mp htone
    exact Pitch.heard_of_derived hp
  · exact Event.heard_deriveChord htones
  · exact he.heard

theorem played_pickVertical {l i : Event} (hl : l.Played v) (hi : i.Played v) (h : e ∈ pickVertical (tonesOf l) i) :
    e.Played v :=
  ⟨resolved_pickVertical hl.resolved hi.resolved h,
    tones_pickVertical (fun _ d htone => htone.lasting d) hl.heard hi.heard h⟩

theorem played_pickHorizontal {pool : List Event} {i : Event} (hpool : ∀ e ∈ pool, e.Played v) (hi : i.Played v)
    (h : e ∈ pickHorizontal pool i) : e.Played v :=
  ⟨resolved_pickHorizontal (fun e he => (hpool e he).resolved) hi.resolved h,
    tones_pickHorizontal (fun e he => (hpool e he).heard) hi.heard h⟩

end ListArithmetic

/-- The chord or the numeral has no more inversions than there are in the
    vocabulary, and a numeral is part of it. -/
def Node.isWithin (v : Vocabulary) : Node → Bool
  | .event (.chord c) => decide ((c.inversions.getD 0).natAbs ≤ v.inversions)
  | .numeral k => v.numerals && decide ((k.numeral.inversions.getD 0).natAbs ≤ v.inversions)
  | _ => true

/-- Events are as they are written or have been played; other nodes are within the vocabulary. -/
structure Node.Tunable (v : Vocabulary) (node : Node) : Prop where
  event : ∀ e, node = .event e → e.Unplayed v ∨ e.Played v
  numeral : ∀ k, node = .numeral k → (Node.numeral k).isWithin v = true

/-- Options keep a key and a scale, and it is known where tones come from. -/
def tuning (v : Vocabulary) : Invariant where
  node := Node.Tunable v
  options := Options.Tonal
  event := Event.Played v

/-- A numeral may keep another chord and is the same numeral. -/
theorem Node.eq_numeral_of_unplayed_eq {node other : Node} {k : KeptNumeral} (h : other.unplayed = node.unplayed)
    (hother : other = .numeral k) : ∃ k' : KeptNumeral, node = .numeral k' ∧ k'.numeral = k.numeral := by
  subst hother
  cases node <;> simp_all [Node.unplayed]

theorem tuning_kept (v : Vocabulary) : (tuning v).Kept where
  toKeptByNodes := {
    shape := by
      intro node other hnode hshape
      constructor
      · intro e hother
        exact hnode.event e (Invariant.eq_event_of_unplayed_eq hshape hother)
      · rintro k rfl
        obtain ⟨k', rfl, hsame⟩ := Node.eq_numeral_of_unplayed_eq hshape rfl
        have hwithin := hnode.numeral k' rfl
        simp only [Node.isWithin, hsame] at hwithin
        exact hwithin
    operators := fun _ _ => trivial
    played := by
      intro e he
      refine ⟨?_, fun r heq => by cases heq⟩
      rintro e' heq
      obtain rfl := Node.event.inj heq
      exact .inr he
    list := by
      intro text values
      constructor
      · intro e heq
        cases heq
      · intro r heq
        cases heq }
  toKeptByOptions := ⟨fun _ => resolving_kept.scope trivial, resolving_kept.duration, resolving_kept.octave⟩
  toKeptBySources := .of_all fun _ _ => trivial
  toKeptByEvents := {
    against := by
      intro e o hnode ho
      rcases hnode.event e rfl with hunplayed | hplayed
      · exact hunplayed.against ho
      · exact hplayed.against ho
    numeral := by
      intro k o c hnode hc
      have hwithin := Bool.and_eq_true_iff.mp (hnode.numeral k rfl)
      refine ⟨resolving_kept.numeral (k := k) trivial hc, ?_⟩
      intro tone htone
      exact .numeral hwithin.1 ⟨k.numeral, o, c, tone, tone.duration, of_decide_eq_true hwithin.2, hc, htone, rfl⟩
    generated := fun _ ho _ overrides =>
      .pitch (Pitch.complete_generated _ _ overrides ho) (.of_inTune (Pitch.inTune_generated ..))
    silence := fun _ _ => ⟨rfl, fun tone htone => by cases htone⟩
    sample := fun _ _ _ => ⟨rfl, fun tone htone => by cases htone⟩
    function := fun _ _ _ => ⟨rfl, fun tone htone => by cases htone⟩
    together := fun _ _ => ⟨trivial, fun tone htone => by cases htone⟩
    setDuration := fun he => he.setDuration _
    combined := fun ho _ _ _ _ _ h => ListArithmetic.played_combinePair ho h
    mapped := fun ho he h => ListArithmetic.played_mapEvent ho he h
    vertical := fun _ _ hl hi h => ListArithmetic.played_pickVertical hl hi h
    horizontal := fun _ hpool hi h => ListArithmetic.played_pickHorizontal hpool hi h }

end NumberedMelody
