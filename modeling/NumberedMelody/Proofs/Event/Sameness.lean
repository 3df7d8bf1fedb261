/-
  NumberedMelody/Proofs/Event/Sameness.lean
  =========================================
  **Events that compare equal.**  Durations, frequencies and the steps of
  scales are compared as numbers; all else has to agree as it stands.  Sorting,
  inverting and resolving keep tones that compare equal together.
-/
import NumberedMelody.Event.Chord
import NumberedMelody.Proofs.Event.Resolved
import NumberedMelody.Proofs.Harmony.Sameness

namespace NumberedMelody

/-- Options that items are played alike against. -/
structure Options.Same (o o' : Options) : Prop where
  key : o.key = o'.key
  scale : Option.Rel Scale.Same o.scale o'.scale
  octave : o.octave = o'.octave
  duration : Binary64.Same o.duration o'.duration
  modifier : o.modifier = o'.modifier

theorem rel_refl {α : Type} {R : α → α → Prop} (hR : ∀ a, R a a) (x : Option α) : Option.Rel R x x := by
  cases x with
  | none => exact .none
  | some a => exact .some (hR a)

theorem rel_of_beq {α : Type} [BEq α] {R : α → α → Prop} (hR : ∀ {a b}, a == b → R a b) {x y : Option α}
    (h : x == y) : Option.Rel R x y := by
  cases x with
  | none =>
    cases y with
    | none => exact .none
    | some => cases h
  | some a =>
    cases y with
    | none => cases h
    | some b => exact .some (hR h)

@[refl] theorem Options.Same.refl (o : Options) : o.Same o := ⟨rfl, rel_refl .refl _, rfl, .refl _, rfl⟩

theorem Options.Same.of_beq {o o' : Options} (h : o == o') : o.Same o' := by
  change instBEqOptions.beq o o' = true at h
  unfold instBEqOptions.beq at h
  simp only [Bool.and_eq_true, beq_iff_eq] at h
  obtain ⟨hkey, hscale, hoctave, hduration, hmodifier, -⟩ := h
  exact ⟨hkey, rel_of_beq .of_beq hscale, hoctave, .of_beq hduration, hmodifier⟩

/-- Options that compare equal to others compare equal to one another. -/
theorem Options.Same.common {o o' other : Options} (h : o.Same other) (h' : o'.Same other) : o.Same o' where
  key := h.key.trans h'.key.symm
  scale := by
    have hscale := h.scale
    have hscale' := h'.scale
    generalize o.scale = scale, o'.scale = scale', other.scale = common at hscale hscale'
    cases hscale with
    | none =>
      cases hscale'
      exact .none
    | some hscale =>
      cases hscale' with
      | some hscale' => exact .some (hscale.common hscale')
  octave := h.octave.trans h'.octave.symm
  duration := h.duration.trans h'.duration.symm
  modifier := h.modifier.trans h'.modifier.symm

/-- Pitches that agree, their numbers compared. -/
structure Pitch.Same (p p' : Pitch) : Prop where
  text : p.text = p'.text
  overrides : p.overrides = p'.overrides
  degree : p.degree = p'.degree
  octave : p.octave = p'.octave
  modifier : p.modifier = p'.modifier
  duration : Option.Rel Binary64.Same p.duration p'.duration
  note : p.note = p'.note
  frequency : Option.Rel Binary64.Same p.frequency p'.frequency
  bend : p.bend = p'.bend
  key : p.key = p'.key
  scale : Option.Rel Scale.Same p.scale p'.scale

/-- Chords that agree tone by tone. -/
structure Chord.Same (c c' : Chord) : Prop where
  text : c.text = c'.text
  overrides : c.overrides = c'.overrides
  tones : List.Forall₂ Pitch.Same c.tones c'.tones
  inversions : c.inversions = c'.inversions
  duration : Option.Rel Binary64.Same c.duration c'.duration

/-! ### Tones -/

theorem rel_or {α : Type} {R : α → α → Prop} {x x' y y' : Option α} (hx : Option.Rel R x x') (hy : Option.Rel R y y') :
    Option.Rel R (x.or y) (x'.or y') := by
  cases hx with
  | none => exact hy
  | some hx => exact .some hx

theorem same_span {scale scale' : Option Scale} (h : Option.Rel Scale.Same scale scale') :
    Binary64.Same ((scale.map Scale.span).getD 12.0) ((scale'.map Scale.span).getD 12.0) := by
  cases h with
  | none => exact .refl _
  | some h => exact h.span

theorem rel_mul {x y : Option Float} (h : Option.Rel Binary64.Same x y) {factor factor' : Float}
    (hfactor : factor = factor') : Option.Rel Binary64.Same (x.map (· * factor)) (y.map (· * factor')) := by
  subst hfactor
  cases h with
  | none => exact .none
  | some h => exact .some (h.mul (.refl _))

namespace Pitch.Same

variable {p p' : Pitch}

@[refl] theorem refl (p : Pitch) : p.Same p :=
  ⟨rfl, rfl, rfl, rfl, rfl, rel_refl .refl _, rfl, rel_refl .refl _, rfl, rfl, rel_refl .refl _⟩

instance : Std.Refl Pitch.Same := ⟨refl⟩

theorem adopt (h : p.Same p') (o : Options) : (p.adopt o).Same (p'.adopt o) where
  text := h.text
  overrides := h.overrides
  degree := h.degree
  octave := by simp only [Pitch.adopt, h.octave, h.overrides]
  modifier := by simp only [Pitch.adopt, h.modifier, h.overrides]
  duration := by
    simp only [Pitch.adopt, h.overrides]
    exact rel_or h.duration (.some (.refl _))
  note := h.note
  frequency := h.frequency
  bend := h.bend
  key := by simp only [Pitch.adopt, h.key, h.overrides]
  scale := by
    simp only [Pitch.adopt, h.overrides]
    exact rel_or h.scale (rel_refl .refl _)

theorem tune (h : p.Same p') (force : Bool) : (p.tune force).Same (p'.tune force) := by
  have hscale := h.scale
  unfold Pitch.tune
  rw [h.note, h.key, h.degree, h.octave, h.modifier]
  split
  · exact h
  · -- both have a scale or neither has one
    generalize p.scale = scale, p'.scale = scale' at hscale
    cases p'.key with
    | none => exact h
    | some key =>
      cases hscale with
      | none => exact h
      | some hscale =>
        have hnote := Harmony.same_exactNote hscale key.toMidi p'.degree (p'.octave.getD 0) (p'.modifier.getD 0)
        dsimp only
        rw [hnote.floor32, Harmony.frequency_eq hnote, Harmony.pitchBend_eq hnote]
        exact ⟨h.text, h.overrides, rfl, rfl, rfl, h.duration, rfl, .some (.refl _), rfl, rfl, .some hscale⟩

theorem resolve (h : p.Same p') (o : Options) : (p.resolve o).Same (p'.resolve o) := (h.adopt o).tune false

theorem lasting (h : p.Same p') {d d' : Option Float} (hd : Option.Rel Binary64.Same d d') :
    ({ p with duration := d } : Pitch).Same { p' with duration := d' } := { h with duration := hd }

theorem shiftOctave (h : p.Same p') (octaves : Int) : (p.shiftOctave octaves).Same (p'.shiftOctave octaves) := by
  have hspan : Binary64.Same ((p.scale.map Scale.span).getD 12.0) ((p'.scale.map Scale.span).getD 12.0) :=
    same_span h.scale
  have hshift := hspan.mul (.refl (Float.ofInt octaves))
  have hfrequency : Option.Rel Binary64.Same _ _ :=
    rel_mul h.frequency (Harmony.raise_eq (hshift.div 12.0))
  unfold Pitch.shiftOctave
  simp only [h.octave, h.note, hshift.round32]
  cases p'.note with
  | none => exact { h with octave := rfl, note := rfl }
  | some note => exact { h with octave := rfl, note := rfl, frequency := hfrequency }

end Pitch.Same

/-! ### Tones together -/

section Tones

variable {tone tone' : Pitch} {tones tones' : List Pitch}

theorem forall₂_insertTone (h : tone.Same tone') (htones : List.Forall₂ Pitch.Same tones tones') :
    List.Forall₂ Pitch.Same (insertTone tone tones) (insertTone tone' tones') := by
  induction htones with
  | nil => exact .cons h .nil
  | cons hother hrest ih =>
    unfold insertTone
    rw [h.note, hother.note]
    split
    · exact .cons h (.cons hother hrest)
    · exact .cons hother ih

theorem forall₂_sortTones (h : List.Forall₂ Pitch.Same tones tones') :
    List.Forall₂ Pitch.Same (sortTones tones) (sortTones tones') := by
  induction h with
  | nil => exact .nil
  | cons hhead _ ih => exact forall₂_insertTone hhead ih

theorem forall₂_modify {f g : Pitch → Pitch} (hfg : ∀ {p p' : Pitch}, p.Same p' → (f p).Same (g p'))
    (h : List.Forall₂ Pitch.Same tones tones') (place : Nat) :
    List.Forall₂ Pitch.Same (tones.modify place f) (tones'.modify place g) := by
  induction h generalizing place with
  | nil => cases place <;> exact .nil
  | cons hhead htail ih =>
    cases place with
    | zero => exact .cons (hfg hhead) htail
    | succ place => exact .cons hhead (ih place)

theorem forall₂_turned (h : List.Forall₂ Pitch.Same tones tones') (inversions : Int) :
    List.Forall₂ Pitch.Same (Chord.turned tones inversions) (Chord.turned tones' inversions) := by
  unfold Chord.turned
  generalize List.range inversions.natAbs = turns
  induction turns generalizing tones tones' with
  | nil => exact h
  | cons i turns ih =>
    refine ih ?_
    simp only [h.length_eq]
    exact forall₂_modify (fun hp => hp.shiftOctave _) h _

theorem rel_firstDuration (h : List.Forall₂ Pitch.Same tones tones') :
    Option.Rel Binary64.Same (Chord.firstDuration tones) (Chord.firstDuration tones') := by
  cases h with
  | nil => exact .none
  | cons hhead _ => exact hhead.duration

end Tones

/-! ### Chords -/

namespace Chord.Same

variable {c c' : Chord}

@[refl] theorem refl (c : Chord) : c.Same c := ⟨rfl, rfl, List.forall₂_refl _, rfl, rel_refl .refl _⟩

theorem sort (h : c.Same c') : c.sort.Same c'.sort := { h with tones := forall₂_sortTones h.tones }

theorem invert (h : c.Same c') (inversions : Int) : (c.invert inversions).Same (c'.invert inversions) := by
  have hempty : c.tones.isEmpty = c'.tones.isEmpty := by
    rw [Bool.eq_iff_iff, List.isEmpty_iff_length_eq_zero, List.isEmpty_iff_length_eq_zero, h.tones.length_eq]
  unfold Chord.invert
  rw [hempty]
  split
  · exact h
  · exact { h with tones := forall₂_sortTones (forall₂_turned (forall₂_sortTones h.tones) inversions) }

/-- Chords with tones that agree once they are resolved. -/
theorem resolve_of_tones (h : c.Same c') {o o' : Options}
    (htones : List.Forall₂ Pitch.Same (c.tones.map (Pitch.resolve · (c.overrides.apply o)))
      (c'.tones.map (Pitch.resolve · (c'.overrides.apply o')))) : (c.resolve o).Same (c'.resolve o') := by
  have hresolved : ({ c with
        tones := c.tones.map (Pitch.resolve · (c.overrides.apply o)), inversions := none } : Chord).Same
      { c' with tones := c'.tones.map (Pitch.resolve · (c'.overrides.apply o')), inversions := none } :=
    { h with tones := htones, inversions := rfl }
  have hsorted := (hresolved.invert (c.inversions.getD 0)).sort
  unfold Chord.resolve
  simp only [← h.inversions]
  exact { hsorted with duration := rel_firstDuration hsorted.tones }

theorem resolve (h : c.Same c') (o : Options) : (c.resolve o).Same (c'.resolve o) := by
  refine h.resolve_of_tones ?_
  rw [h.overrides, List.forall₂_map_left_iff, List.forall₂_map_right_iff]
  exact h.tones.imp fun _ _ htone => htone.resolve _

/-- Complete tones take nothing from the options, so the two chords need not be
    resolved against the same ones. -/
theorem resolve_complete (h : c.Same c') (hcomplete : ∀ tone ∈ c.tones, tone.Complete)
    (hcomplete' : ∀ tone ∈ c'.tones, tone.Complete) (o o' : Options) : (c.resolve o).Same (c'.resolve o') := by
  refine h.resolve_of_tones ?_
  rw [map_resolve_eq hcomplete, map_resolve_eq hcomplete']
  exact h.tones

theorem setDuration (h : c.Same c') {d d' : Float} (hd : Binary64.Same d d') :
    (c.setDuration d).Same (c'.setDuration d') := by
  refine { h with duration := .some hd, tones := ?_ }
  rw [Chord.setDuration, Chord.setDuration, List.forall₂_map_left_iff, List.forall₂_map_right_iff]
  exact h.tones.imp fun _ _ htone => htone.lasting (.some hd)

end Chord.Same

end NumberedMelody
