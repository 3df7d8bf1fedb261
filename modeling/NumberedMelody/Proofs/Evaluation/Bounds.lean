/-
  NumberedMelody/Proofs/Evaluation/Bounds.lean
  ============================================
  **Degrees stay within 32 bits.**  Degrees and bounds are read as 32-bit
  integers.  Random degrees lie between their bounds or are below the number of
  degrees of the scale, what expressions yield is brought into 32 bits,
  arithmetic fails where a result does not fit, and all else hands degrees on
  (`bounding_kept`).
-/
import NumberedMelody.Proofs.Evaluation.Degrees
import NumberedMelody.Proofs.Evaluation.Maintenance
import NumberedMelody.Proofs.Evaluation.Product
import NumberedMelody.Proofs.Grammar.Written
import NumberedMelody.Proofs.Harmony.WholeSteps

namespace NumberedMelody

/-! ### Integers of 32 bits -/

theorem Binary64.fits32_clamp32 (n : Int) : fits32 (clamp32 n) = true := by
  rw [fits32_iff]
  unfold clamp32
  omega

theorem Binary64.fits32_floor32 (x : Float) : fits32 (floor32 x) = true := by
  unfold floor32 wholePart
  split
  · rfl
  · next negative _ => cases negative <;> rfl
  · exact fits32_clamp32 _

theorem fits32_of_between {low high n : Int} (hlow : fits32 low = true) (hhigh : fits32 high = true)
    (h : min low high ≤ n ∧ n ≤ max low high) : fits32 n = true := by
  rw [fits32_iff] at *
  omega

theorem mem_integersBetween {first last n : Int} (h : n ∈ integersBetween first last) :
    min first last ≤ n ∧ n ≤ max first last := by
  unfold integersBetween at h
  split at h
  · obtain ⟨i, hi, rfl⟩ := List.mem_map.mp h
    have hlt := List.mem_range.mp hi
    omega
  · obtain ⟨i, hi, rfl⟩ := List.mem_map.mp h
    have hlt := List.mem_range.mp hi
    omega

theorem Arithmetic.fits32_of_apply {op : Arithmetic} {a b result : Int} (ha : fits32 a = true) (hb : fits32 b = true)
    (h : op.apply a b = .ok result) : fits32 result = true := by
  obtain ⟨hop, hchecked⟩ := apply_eq_ok_iff.mp h
  exact ((checked_eq_some_iff ha hb hop).mp hchecked).2.1

/-! ### Degrees of events -/

theorem Pitch.degree_shiftOctave (p : Pitch) (direction : Int) : (p.shiftOctave direction).degree = p.degree := by
  unfold shiftOctave
  cases p.note <;> rfl

namespace Event

variable {e : Event} {o : Options}

theorem Bounded.resolve {c : Chord} (h : ∀ tone ∈ c.tones, fits32 tone.degree = true) (o : Options) :
    (Event.chord (c.resolve o)).Bounded := by
  refine c.forall_mem_resolve (P := fun tone => fits32 tone.degree = true) ?_ o ?_
  · intro tone htone octaves
    rwa [Pitch.degree_shiftOctave]
  · intro tone htone
    rw [Pitch.degree_resolve]
    exact h tone htone

theorem Bounded.against (h : e.Bounded) (o : Options) : (e.against o).Bounded := by
  cases e with
  | pitch p =>
    refine List.forall_mem_singleton.mpr ?_
    rw [Pitch.degree_resolve]
    exact h p (List.mem_singleton.mpr rfl)
  | chord c => exact .resolve h o
  | _ => exact List.forall_mem_nil _

end Event

namespace ListArithmetic

variable {o : Options} {e : Event}

theorem bounded_combinePair {op : Arithmetic} {l r : Event} (hl : l.Bounded) (hr : r.Bounded)
    (h : combinePair op o l r = .ok e) : e.Bounded := by
  intro tone htone
  -- sorting hides which pair a tone is made of, but not that its degree is that of a pair
  have hmem := ((madeFrom_of_combinePair h).degrees.mem_iff).mp (List.mem_map_of_mem htone)
  obtain ⟨⟨a, b⟩, hpair, hdegree⟩ := List.mem_map.mp hmem
  obtain ⟨ha, hb⟩ := List.pair_mem_product.mp hpair
  exact Arithmetic.fits32_of_apply (hl a ha) (hr b hb) hdegree

theorem fits32_of_mapPitch {expr : Expr} {a p : Pitch} (h : mapPitch expr o a = .ok p) : fits32 p.degree = true := by
  obtain ⟨value, -, h⟩ := bind_eq_ok.mp h
  obtain rfl := Except.ok.inj h
  rw [degree_derive]
  exact Binary64.fits32_floor32 value

theorem bounded_mapEvent {expr : Expr} {e' : Event} (he : e.Bounded) (h : mapEvent expr o e = .ok e') : e'.Bounded := by
  cases e with
  | pitch a =>
    obtain ⟨p, hp, h⟩ := bind_eq_ok.mp h
    obtain rfl := Except.ok.inj h
    exact List.forall_mem_singleton.mpr (fits32_of_mapPitch hp)
  | chord c =>
    obtain ⟨tones, htones, h⟩ := bind_eq_ok.mp h
    obtain rfl := Except.ok.inj h
    refine Event.Bounded.resolve ?_ o
    intro tone htone
    obtain ⟨a, -, ha⟩ := mem_of_mapM_eq_ok htones tone htone
    exact fits32_of_mapPitch ha
  | _ =>
    obtain rfl := Except.ok.inj h
    exact he

end ListArithmetic

/-- Notes are spelled with the degrees of an octave. -/
theorem RomanNumeral.bounded_chordFor {r : RomanNumeral} {options : Options} {c : Chord}
    (h : r.chordFor options = .ok c) :
    (Event.chord c).Bounded := by
  obtain ⟨key, scale, degree, shift, -, rfl⟩ := RomanNumeral.chordFor_eq_ok h
  refine Event.Bounded.resolve ?_ _
  intro tone htone
  obtain ⟨note, -, rfl⟩ := List.mem_map.mp htone
  obtain ⟨hlow, hhigh⟩ := Harmony.spell_degree_bounds (note + shift) key scale
  exact fits32_of_natAbs_lt (show (Harmony.spell (note + shift) key scale).degree.natAbs < 2 ^ 31 by omega)

/-! ### Evaluation -/

/-- The degrees of the scale can be counted in 32 bits. -/
def Options.Sized (o : Options) : Prop := ∀ scale, o.scale = some scale → scale.size < 2 ^ 31

theorem Node.bounded_unplayed (node : Node) : node.unplayed.Bounded ↔ node.Bounded := by
  cases node <;> simp only [Node.unplayed, Node.Bounded]

theorem Node.Bounded.scope {node : Node} (h : node.Bounded) : node.scope.scale = none := by
  cases node with
  | sequence text overrides isList values => exact h
  | subdivision text overrides values => exact h
  | _ => rfl

theorem Options.Sized.apply {o : Options} (h : o.Sized) {overrides : Overrides} (hoverrides : overrides.scale = none) :
    (overrides.apply o).Sized := by
  intro scale hscale
  simp only [Overrides.apply, hoverrides, Option.none_or] at hscale
  exact h scale hscale

theorem Scale.size_ionian : (named ionian).size = 7 := by
  rw [size, intervals_ionian, List.length_map]
  rfl

theorem Options.sized_default : Options.Sized {} := by
  intro scale hscale
  obtain rfl := Option.some.inj hscale
  rw [Scale.size_ionian]
  decide

theorem Options.Sized.size_lt {o : Options} (h : o.Sized) : (o.scale.getD (.named Scale.ionian)).size < 2 ^ 31 := by
  cases hscale : o.scale with
  | none =>
    rw [Option.getD_none, Scale.size_ionian]
    decide
  | some scale => exact h scale hscale

/-- Generated degrees are between bounds that were read, are counted by the
    scale, or are brought into 32 bits. -/
theorem Node.Generates.fits32 {node : Node} {o : Options} {degree : Int} (hnode : node.Bounded) (ho : o.Sized)
    (h : node.Generates o degree) : fits32 degree = true := by
  cases node with
  | randomPitch text overrides =>
    obtain ⟨hlow, hhigh⟩ := h
    have hsize := (ho.apply hnode).size_lt
    rw [fits32_iff]
    omega
  | randomInteger text overrides low high => exact fits32_of_between hnode.1 hnode.2 h
  | integer text value =>
    obtain rfl := h
    exact hnode
  | range text overrides first last => exact fits32_of_between hnode.1 hnode.2 (mem_integersBetween h)
  | expression text overrides expr =>
    obtain ⟨value, rfl⟩ := h
    exact Binary64.fits32_floor32 value
  | _ => cases h

/-- Degrees fit into 32 bits. -/
def bounding : Invariant where
  node := Node.Bounded
  options := Options.Sized
  event := Event.Bounded

/-- **Degrees stay within 32 bits.** -/
theorem bounding_kept : bounding.Kept where
  toKeptByNodes := {
    shape := Node.holds_of_unplayed_eq Node.bounded_unplayed
    operators := fun _ _ => trivial
    played := id
    list := fun _ _ => rfl }
  toKeptByOptions := ⟨fun hnode ho => ho.apply hnode.scope, fun ho _ => ho, fun ho _ => ho⟩
  toKeptBySources := .of_all fun _ _ => trivial
  toKeptByEvents := {
    against := fun hnode _ => hnode.against _
    numeral := fun _ hc => RomanNumeral.bounded_chordFor hc
    generated := by
      intro node o degree hnode ho hgenerates overrides
      refine List.forall_mem_singleton.mpr ?_
      rw [Pitch.generated, Pitch.degree_resolve]
      exact hgenerates.fits32 hnode ho
    silence := fun _ _ => List.forall_mem_nil _
    sample := fun _ _ _ => List.forall_mem_nil _
    function := fun _ _ _ => List.forall_mem_nil _
    together := fun _ _ => List.forall_mem_nil _
    setDuration := fun he => ListArithmetic.tones_setDuration (fun _ _ hp => hp) he _
    combined := fun _ _ _ _ hl hr h => ListArithmetic.bounded_combinePair hl hr h
    mapped := fun _ he h => ListArithmetic.bounded_mapEvent he h
    vertical := fun _ _ hl hi h => ListArithmetic.tones_pickVertical (fun _ _ hp => hp) hl hi h
    horizontal := fun _ hpool hi h => ListArithmetic.tones_pickHorizontal hpool hi h }

end NumberedMelody
