/-
  NumberedMelody/Proofs/Event/Resolved.lean
  =========================================
  **Resolving an event a second time.**  An event that has been played against a
  key and a scale has nothing left to take from options.  Played again, against
  any options, a pitch, a rest, a sample, a function and layers come back as
  they are.  A chord comes back with the duration of its first tone, whatever
  duration of its own it had (`Resolved.against_eq`).
-/
import Mathlib.Data.List.Sort
import NumberedMelody.Evaluation.Leaf
import NumberedMelody.Evaluation.ListArithmetic

namespace NumberedMelody

/-! ### Sorted tones -/

def NotAbove {τ : Type} (tone other : Pitch τ) : Prop := noteAtMost tone.note other.note = true

section Sorting

variable {τ : Type}

instance : DecidableRel (NotAbove (τ := τ)) := fun tone other => decEq (noteAtMost tone.note other.note) true

theorem noteAtMost_total (a b : Option Int) : noteAtMost a b = true ∨ noteAtMost b a = true := by
  cases a with
  | none => exact .inl rfl
  | some a =>
    cases b with
    | none => exact .inr rfl
    | some b =>
      simp only [noteAtMost, decide_eq_true_eq]
      omega

theorem noteAtMost_trans {a b c : Option Int} (hab : noteAtMost a b = true) (hbc : noteAtMost b c = true) :
    noteAtMost a c = true := by
  cases a with
  | none => rfl
  | some a =>
    cases b with
    | none => cases hab
    | some b =>
      cases c with
      | none => cases hbc
      | some c =>
        simp only [noteAtMost, decide_eq_true_eq] at hab hbc ⊢
        omega

instance : Std.Total (NotAbove (τ := τ)) := ⟨fun _ _ => noteAtMost_total _ _⟩

instance : IsTrans (Pitch τ) NotAbove := ⟨fun _ _ _ => noteAtMost_trans⟩

theorem insertTone_eq_orderedInsert (tone : Pitch τ) (tones : List (Pitch τ)) :
    insertTone tone tones = tones.orderedInsert NotAbove tone := by
  induction tones with
  | nil => rfl
  | cons other rest ih =>
    simp only [insertTone, List.orderedInsert_cons, ih]
    rfl

theorem sortTones_eq_insertionSort (tones : List (Pitch τ)) : sortTones tones = tones.insertionSort NotAbove := by
  unfold sortTones List.insertionSort
  rw [funext fun tone => funext (insertTone_eq_orderedInsert tone)]

@[simp] theorem mem_sortTones {tone : Pitch τ} {tones : List (Pitch τ)} : tone ∈ sortTones tones ↔ tone ∈ tones := by
  rw [sortTones_eq_insertionSort, List.mem_insertionSort]

theorem pairwise_sortTones (tones : List (Pitch τ)) : (sortTones tones).Pairwise NotAbove := by
  rw [sortTones_eq_insertionSort]
  exact List.pairwise_insertionSort NotAbove tones

@[simp] theorem length_sortTones (tones : List (Pitch τ)) : (sortTones tones).length = tones.length := by
  rw [sortTones_eq_insertionSort, List.length_insertionSort]

theorem perm_sortTones (tones : List (Pitch τ)) : (sortTones tones).Perm tones := by
  rw [sortTones_eq_insertionSort]
  exact List.perm_insertionSort NotAbove tones

theorem sortTones_of_pairwise {tones : List (Pitch τ)} (h : tones.Pairwise NotAbove) : sortTones tones = tones := by
  rw [sortTones_eq_insertionSort]
  exact h.insertionSort_eq

end Sorting

/-! ### Complete pitches -/

/-- Options with a key and a scale. -/
structure Options.Tonal (o : Options) : Prop where
  key : o.key.isSome = true
  scale : o.scale.isSome = true

theorem Options.Tonal.apply {o : Options} (h : o.Tonal) (overrides : Overrides) : (overrides.apply o).Tonal := by
  constructor
  · cases hkey : overrides.key with
    | none => simpa [Overrides.apply, hkey] using h.key
    | some key => simp [Overrides.apply, hkey]
  · cases hscale : overrides.scale with
    | none => simpa [Overrides.apply, hscale] using h.scale
    | some scale => simp [Overrides.apply, hscale]

namespace Pitch

/-- A pitch with nothing left to take from options but a note. -/
structure Adopted (p : Pitch) : Prop where
  key : p.key.isSome = true
  scale : p.scale.isSome = true
  duration : p.duration.isSome = true
  octave : p.octave.isSome = true
  modifier : p.modifier.isSome = true

/-- A pitch with nothing left to take from options. -/
structure Complete (p : Pitch) : Prop extends p.Adopted where
  note : p.note.isSome = true

variable {p : Pitch} {o : Options}

theorem adopted_adopt (p : Pitch) (ho : o.Tonal) : (p.adopt o).Adopted := by
  have happly := ho.apply p.overrides
  refine ⟨?_, ?_, ?_, ?_, ?_⟩
  · simp [adopt, happly.key]
  · simp [adopt, happly.scale]
  · simp [adopt]
  · simp [adopt]
  · simp [adopt]

theorem Adopted.complete_tune (h : p.Adopted) (force : Bool) : (p.tune force).Complete := by
  obtain ⟨key, hkey⟩ := Option.isSome_iff_exists.mp h.key
  obtain ⟨scale, hscale⟩ := Option.isSome_iff_exists.mp h.scale
  unfold tune
  by_cases hnote : (p.note.isSome && !force) = true
  · rw [if_pos hnote]
    exact ⟨h, (Bool.and_eq_true_iff.mp hnote).1⟩
  · rw [if_neg hnote]
    split
    · exact ⟨⟨h.key, h.scale, h.duration, h.octave, h.modifier⟩, rfl⟩
    · next hnone => exact (hnone key scale hkey hscale).elim

theorem complete_resolve (p : Pitch) (ho : o.Tonal) : (p.resolve o).Complete :=
  (p.adopted_adopt ho).complete_tune false

theorem complete_generated (degree : Int) (text : String) (overrides : Overrides) (ho : o.Tonal) :
    (generated degree text overrides o).Complete :=
  complete_resolve _ ho

theorem Complete.adopt_eq (h : p.Complete) (o : Options) : p.adopt o = p := by
  obtain ⟨⟨hkey, hscale, hduration, hoctave, hmodifier⟩, -⟩ := h
  unfold adopt
  simp only [Option.or_of_isSome hkey, Option.or_of_isSome hscale, Option.or_of_isSome hduration,
    Option.or_of_isSome hoctave, Option.or_of_isSome hmodifier]

theorem Complete.resolve_eq (h : p.Complete) (o : Options) : p.resolve o = p := by
  unfold resolve tune
  rw [h.adopt_eq o, h.note]
  rfl

theorem Complete.shiftOctave (h : p.Complete) (octaves : Int) : (p.shiftOctave octaves).Complete := by
  obtain ⟨note, hnote⟩ := Option.isSome_iff_exists.mp h.note
  unfold Pitch.shiftOctave
  simp only [hnote]
  exact ⟨⟨h.key, h.scale, h.duration, rfl, h.modifier⟩, rfl⟩

theorem Complete.lasting (h : p.Complete) {d : Option Float} (hd : d.isSome = true) :
    ({ p with duration := d } : Pitch).Complete :=
  ⟨⟨h.key, h.scale, hd, h.octave, h.modifier⟩, h.note⟩

end Pitch

theorem RomanNumeral.complete_tone (options : Options) (key : Key) (scale : Scale) (note : Int) :
    (tone options key scale note).Complete :=
  ⟨⟨rfl, rfl, rfl, rfl, rfl⟩, rfl⟩

/-! ### Chords in order -/

namespace Chord

/-- The tones are complete and sorted, and no inversion is left to be made. -/
structure InOrder (c : Chord) : Prop where
  tones : ∀ tone ∈ c.tones, tone.Complete
  sorted : c.tones.Pairwise NotAbove
  inversions : c.inversions = none

/-- What holds of all tones after so many turns, whether the next turn moves
    them or not, holds after all turns. -/
theorem forall_mem_turned {P : Nat → Pitch → Prop} {inversions : Int}
    (hstay : ∀ {turns tone}, P turns tone → P (turns + 1) tone)
    (hshift : ∀ {turns tone}, P turns tone → P (turns + 1) (tone.shiftOctave inversions.sign))
    {tones : List Pitch} (h : ∀ tone ∈ tones, P 0 tone) :
    ∀ tone ∈ turned tones inversions, P inversions.natAbs tone := by
  suffices hturns : ∀ (places : List Nat) (turns : Nat) (tones : List Pitch), (∀ tone ∈ tones, P turns tone) →
      ∀ tone ∈ places.foldl (fun tones i =>
          tones.modify (turnPlace tones.length (decide (0 < inversions)) i) (Pitch.shiftOctave · inversions.sign)) tones,
        P (turns + places.length) tone by
    have hall := hturns (List.range inversions.natAbs) 0 tones h
    rwa [List.length_range, Nat.zero_add] at hall
  intro places
  induction places with
  | nil => exact fun turns tones h => h
  | cons i places ih =>
    intro turns tones h
    rw [List.length_cons, Nat.add_comm places.length 1, ← Nat.add_assoc]
    refine ih (turns + 1) _ ?_
    intro tone htone
    obtain ⟨place, hplace, rfl⟩ := List.mem_iff_getElem.mp htone
    rw [List.getElem_modify]
    split
    · exact hshift (h _ (List.getElem_mem _))
    · exact hstay (h _ (List.getElem_mem _))

/-- What holds of every tone once it is resolved, and after every turn of an
    inversion, holds of the tones of the resolved chord. -/
theorem forall_mem_resolve_turned {P : Nat → Pitch → Prop} (c : Chord) (o : Options)
    (hstay : ∀ {turns tone}, P turns tone → P (turns + 1) tone)
    (hshift : ∀ {turns tone}, P turns tone → P (turns + 1) (tone.shiftOctave (c.inversions.getD 0).sign))
    (h : ∀ tone ∈ c.tones, P 0 (tone.resolve (c.overrides.apply o))) :
    ∀ tone ∈ (c.resolve o).tones, P (c.inversions.getD 0).natAbs tone := by
  have hresolved : ∀ tone ∈ c.tones.map (Pitch.resolve · (c.overrides.apply o)), P 0 tone := by
    intro tone htone
    obtain ⟨tone, hmem, rfl⟩ := List.mem_map.mp htone
    exact h tone hmem
  intro tone htone
  simp only [resolve, sort, mem_sortTones, invert] at htone
  split at htone
  · next hnone =>
    rcases Bool.or_eq_true_iff.mp hnone with hempty | hzero
    · rw [List.isEmpty_iff.mp hempty] at htone
      cases htone
    · rw [beq_iff_eq.mp hzero]
      exact hresolved tone htone
  · rw [mem_sortTones] at htone
    refine forall_mem_turned hstay hshift ?_ tone htone
    intro tone htone
    exact hresolved tone (mem_sortTones.mp htone)

/-- What holds of every tone once it is resolved, and of a tone an octave away,
    holds of the tones of the resolved chord. -/
theorem forall_mem_resolve {P : Pitch → Prop} (hshift : ∀ {tone}, P tone → ∀ octaves, P (tone.shiftOctave octaves))
    (c : Chord) (o : Options) (h : ∀ tone ∈ c.tones, P (tone.resolve (c.overrides.apply o))) :
    ∀ tone ∈ (c.resolve o).tones, P tone :=
  c.forall_mem_resolve_turned (P := fun _ => P) o id (fun htone => hshift htone _) h

theorem length_turned (tones : List Pitch) (inversions : Int) : (turned tones inversions).length = tones.length := by
  unfold turned
  generalize List.range inversions.natAbs = turns
  induction turns generalizing tones with
  | nil => rfl
  | cons i turns ih =>
    rw [List.foldl_cons, ih, List.length_modify]

theorem length_resolve (c : Chord) (o : Options) : (c.resolve o).tones.length = c.tones.length := by
  simp only [resolve, sort, invert, length_sortTones]
  split
  · exact List.length_map _
  · rw [length_sortTones, length_turned, length_sortTones, List.length_map]

theorem inOrder_resolve (c : Chord) {o : Options} (ho : o.Tonal) : (c.resolve o).InOrder := by
  refine ⟨?_, pairwise_sortTones _, ?_⟩
  · exact c.forall_mem_resolve Pitch.Complete.shiftOctave o fun tone _ => tone.complete_resolve (ho.apply c.overrides)
  · simp only [resolve, sort, invert]
    split <;> rfl

theorem invert_zero (c : Chord) : c.invert 0 = c := by simp [invert]

theorem map_resolve_eq {tones : List Pitch} (h : ∀ tone ∈ tones, tone.Complete) (o : Options) :
    tones.map (Pitch.resolve · o) = tones :=
  (List.map_congr_left fun tone htone => (h tone htone).resolve_eq o).trans (List.map_id tones)

/-- A chord in order takes nothing from options; only its duration becomes that
    of its first tone. -/
theorem InOrder.resolve_eq {c : Chord} (h : c.InOrder) (o : Options) :
    c.resolve o = { c with duration := firstDuration c.tones } := by
  unfold resolve
  rw [h.inversions]
  simp only [map_resolve_eq h.tones, Option.getD_none, invert_zero, sort, sortTones_of_pairwise h.sorted]

/-- Complete tones, sorted. -/
theorem inOrder_sorted {tones : List Pitch} (h : ∀ tone ∈ tones, tone.Complete) (text : String)
    (duration : Option Float) : ({ text, tones := sortTones tones, duration } : Chord).InOrder := by
  refine ⟨?_, pairwise_sortTones _, rfl⟩
  intro tone htone
  exact h tone (mem_sortTones.mp htone)

theorem InOrder.setDuration {c : Chord} (h : c.InOrder) (d : Float) : (c.setDuration d).InOrder := by
  refine ⟨?_, ?_, h.inversions⟩
  · intro tone htone
    obtain ⟨tone, hmem, rfl⟩ := List.mem_map.mp htone
    exact (h.tones tone hmem).lasting rfl
  · exact List.pairwise_map.mpr h.sorted

end Chord

/-! ### Resolved events -/

namespace Event

/-- The event has nothing left to take from options. -/
def Resolved : Event → Prop
  | .pitch p => p.Complete
  | .chord c => c.InOrder
  | .rest r => r.duration.isSome = true
  | .sample s => s.duration.isSome = true
  | .function f => f.duration.isSome = true
  | .polyphony _ _ => True

/-- The event with the duration of a chord taken from its first tone. -/
def retimed : Event → Event
  | .chord c => .chord { c with duration := Chord.firstDuration c.tones }
  | other => other

theorem resolved_against (e : Event) {o : Options} (ho : o.Tonal) : (e.against o).Resolved := by
  cases e with
  | pitch p => exact p.complete_resolve ho
  | chord c => exact c.inOrder_resolve ho
  | rest r => simp [against, Resolved]
  | sample s => simp [against, Resolved]
  | function f => simp [against, Resolved]
  | polyphony text layers => trivial

/-- **Playing a resolved event again changes nothing but the duration of a chord.** -/
theorem Resolved.against_eq {e : Event} (h : e.Resolved) (o : Options) : e.against o = e.retimed := by
  cases e with
  | pitch p => exact congrArg pitch (Pitch.Complete.resolve_eq h o)
  | chord c => exact congrArg chord (Chord.InOrder.resolve_eq h o)
  | rest r =>
    have hd : r.duration.isSome = true := h
    simp only [against, retimed, Option.or_of_isSome hd]
  | sample s =>
    have hd : s.duration.isSome = true := h
    simp only [against, retimed, Option.or_of_isSome hd]
  | function f =>
    have hd : f.duration.isSome = true := h
    simp only [against, retimed, Option.or_of_isSome hd]
  | polyphony text layers => rfl

theorem retimed_eq_iff {e : Event} :
    e.retimed = e ↔ ∀ c, e = .chord c → c.duration = Chord.firstDuration c.tones := by
  cases e with
  | chord c =>
    constructor
    · intro h c' hc
      obtain rfl := Event.chord.inj hc
      exact (congrArg Chord.duration (Event.chord.inj h)).symm
    · intro h
      simp only [retimed, ← h c rfl]
  | _ => simp [retimed]

/-- Layers stay layers, however long they last. -/
theorem setDuration_polyphony (text : String) (layers : List (List Event)) (d : Float) :
    ∃ stretched, (polyphony text layers).setDuration d = polyphony text stretched := by
  rw [setDuration]
  split
  · exact ⟨layers, rfl⟩
  · exact ⟨_, rfl⟩

theorem Resolved.setDuration {e : Event} (h : e.Resolved) (d : Float) : (e.setDuration d).Resolved := by
  cases e with
  | pitch p => exact Pitch.Complete.lasting h rfl
  | chord c => exact Chord.InOrder.setDuration h d
  | rest r => rfl
  | sample s => rfl
  | function f => rfl
  | polyphony text layers =>
    obtain ⟨stretched, heq⟩ := Event.setDuration_polyphony text layers d
    rw [heq]
    trivial

theorem Resolved.tonesOf {e : Event} (h : e.Resolved) : ∀ tone ∈ ListArithmetic.tonesOf e, tone.Complete := by
  intro tone htone
  cases e with
  | pitch p =>
    obtain rfl := List.mem_singleton.mp htone
    exact h
  | chord c => exact Chord.InOrder.tones h tone htone
  | _ => cases htone

end Event

end NumberedMelody
