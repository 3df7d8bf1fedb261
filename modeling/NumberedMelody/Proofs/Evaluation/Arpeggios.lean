/-
  NumberedMelody/Proofs/Evaluation/Arpeggios.lean
  ===============================================
  **Arpeggios pick in range and in order.**  An index of any size names a place
  of a list: the one that differs from it by a multiple of the length.  What one
  index event is to pick is stated by that place alone, once for the tones of a
  chord and once for a list of events, with one case per kind of index event.
  Both arpeggios make one pick after another, none is dropped, and each stands
  where its index event stands (`ListArithmetic.arpeggios_pick_in_order`).
-/
import Mathlib.Data.List.ProdSigma
import NumberedMelody.Proofs.Evaluation.Derived
import NumberedMelody.Proofs.Event.Resolved

namespace NumberedMelody

namespace ListArithmetic

section Passes

variable {α β : Type}

theorem flatMap_flatMap_eq_product {γ : Type} (f : α → β → List γ) (xs : List α) (ys : List β) :
    (xs.flatMap fun x => ys.flatMap (f x)) = (xs ×ˢ ys).flatMap fun pair => f pair.1 pair.2 := by
  induction xs with
  | nil => rfl
  | cons x more ih => rw [List.flatMap_cons, List.product_cons, List.flatMap_append, List.flatMap_map, ih]

/-- A pass whose steps yield one thing each yields one thing for each step. -/
theorem forall₂_flatMap_of_singleton {R : α → β → Prop} {f : α → List β} (xs : List α)
    (h : ∀ x ∈ xs, ∃ y, f x = [y] ∧ R x y) : List.Forall₂ R xs (xs.flatMap f) := by
  induction xs with
  | nil => exact .nil
  | cons x more ih =>
    obtain ⟨y, hy, hR⟩ := h x List.mem_cons_self
    rw [List.flatMap_cons, hy]
    exact .cons hR (ih fun other hother => h other (List.mem_cons_of_mem x hother))

/-- A pass whose steps all find something drops nothing. -/
theorem forall₂_filterMap_of_some {R : α → β → Prop} {f : α → Option β} (xs : List α)
    (h : ∀ x ∈ xs, ∃ y, f x = some y ∧ R x y) : List.Forall₂ R xs (xs.filterMap f) := by
  induction xs with
  | nil => exact .nil
  | cons x more ih =>
    obtain ⟨y, hy, hR⟩ := h x List.mem_cons_self
    rw [List.filterMap_cons_some hy]
    exact .cons hR (ih fun other hother => h other (List.mem_cons_of_mem x hother))

end Passes

/-! ### Places -/

section Places

variable {α : Type} {xs : List α}

/-- The element at an index: it stands at the place that differs from the index
    by a multiple of the length. -/
def AtIndex (xs : List α) (index : Int) (x : α) : Prop :=
  ∃ place : Nat, (xs.length : Int) ∣ index - place ∧ xs[place]? = some x

theorem atIndex_iff_wrapped {index : Int} {x : α} : AtIndex xs index x ↔ wrapped? xs index = some x := by
  constructor
  · rintro ⟨place, hdvd, hplace⟩
    obtain ⟨hlt, -⟩ := List.getElem?_eq_some_iff.mp hplace
    -- a place within the list is its own remainder
    have hmod : index % (xs.length : Int) = place :=
      (Int.emod_eq_emod_iff_emod_sub_eq_zero.mpr (Int.emod_eq_zero_of_dvd hdvd)).trans
        (Int.emod_eq_of_lt (by omega) (by omega))
    rw [wrapped?, hmod]
    exact hplace
  · intro h
    have hlength : xs.length ≠ 0 := by
      intro hnil
      rw [List.length_eq_zero_iff.mp hnil] at h
      cases h
    have hnonneg : 0 ≤ index % (xs.length : Int) := Int.emod_nonneg index (by omega)
    refine ⟨(index % (xs.length : Int)).toNat, ?_, h⟩
    rw [Int.toNat_of_nonneg hnonneg]
    exact Int.dvd_self_sub_emod

theorem exists_atIndex (h : xs ≠ []) (index : Int) : ∃ x, wrapped? xs index = some x ∧ AtIndex xs index x := by
  obtain ⟨x, hx⟩ := exists_wrapped h index
  exact ⟨x, hx, atIndex_iff_wrapped.mpr hx⟩

end Places

/-! ### Sorting -/

/-- Some tones in the order of their notes; tones of one note keep their order. -/
structure SortedFrom (tones sorted : List Pitch) : Prop where
  perm : sorted.Perm tones
  ascending : sorted.Pairwise NotAbove
  stable : ∀ note, (sorted.filter fun tone => tone.note == note) = tones.filter fun tone => tone.note == note

theorem filter_insertTone (tone : Pitch) (tones : List Pitch) (note : Option Int) :
    ((insertTone tone tones).filter fun tone => tone.note == note) =
      (tone :: tones).filter fun tone => tone.note == note := by
  induction tones with
  | nil => rfl
  | cons other more ih =>
    rw [insertTone]
    split
    · rfl
    · next habove =>
      -- the tone passes another one only if their notes differ
      have hne : tone.note ≠ other.note := by
        intro heq
        rw [heq] at habove
        exact habove ((noteAtMost_total other.note other.note).elim id id)
      rw [List.filter_cons, ih]
      by_cases hnote : tone.note = note
      · have hother : (other.note == note) = false := beq_false_of_ne fun h => hne (hnote.trans h.symm)
        simp [hnote, hother]
      · have htone : (tone.note == note) = false := beq_false_of_ne hnote
        simp [htone, List.filter_cons]

theorem sortedFrom_sortTones (tones : List Pitch) : SortedFrom tones (sortTones tones) := by
  refine ⟨perm_sortTones tones, pairwise_sortTones tones, fun note => ?_⟩
  induction tones with
  | nil => rfl
  | cons tone more ih =>
    have hsort : sortTones (tone :: more) = insertTone tone (sortTones more) := rfl
    rw [hsort, filter_insertTone, List.filter_cons, List.filter_cons, ih]

/-! ### One pick -/

/-- The tone that an index picks: the one at its degree, lasting as long as the
    index if that has a duration, and else as it was. -/
def TonePicked (tones : List Pitch) (index tone : Pitch) : Prop :=
  ∃ picked, AtIndex tones index.degree picked ∧ tone = { picked with duration := index.duration.or picked.duration }

/-- What an index event picks from the tones of a chord. -/
inductive PickedFromTones (tones : List Pitch) : Event → Event → Prop
  | pitch {index tone} : TonePicked tones index tone → PickedFromTones tones (.pitch index) (.pitch tone)
  | chord {c picked sorted} : List.Forall₂ (TonePicked tones) c.tones picked → SortedFrom picked sorted →
      PickedFromTones tones (.chord c) (.chord { text := c.text, tones := sorted, duration := c.duration })
  | copied {other} : other.isPitched = false → PickedFromTones tones other other

/-- What an index event picks from a list of events. -/
inductive PickedFromList (pool : List Event) : Event → Event → Prop
  | pitch {index e} : AtIndex pool index.degree e → PickedFromList pool (.pitch index) e
  | chord {c picked sorted} : List.Forall₂ (fun index => AtIndex pool index.degree) c.tones picked →
      SortedFrom (picked.flatMap tonesOf) sorted →
      PickedFromList pool (.chord c)
        (.chord { text := c.text, tones := sorted, duration := Chord.firstDuration sorted })
  | copied {other} : other.isPitched = false → PickedFromList pool other other

theorem tonePicked_of_ne_nil {tones : List Pitch} (h : tones ≠ []) (index : Pitch) :
    ∃ tone, pickTone tones index = some tone ∧ TonePicked tones index tone := by
  obtain ⟨picked, hpicked, hindex⟩ := exists_atIndex h index.degree
  exact ⟨_, by rw [pickTone, hpicked]; rfl, picked, hindex, rfl⟩

theorem pickVertical_singleton {tones : List Pitch} (h : tones ≠ []) (i : Event) :
    ∃ e, pickVertical tones i = [e] ∧ PickedFromTones tones i e := by
  cases i with
  | pitch index =>
    obtain ⟨tone, htone, hpicked⟩ := tonePicked_of_ne_nil h index
    exact ⟨.pitch tone, by rw [pickVertical, htone]; rfl, .pitch hpicked⟩
  | chord c =>
    have hpicked := forall₂_filterMap_of_some c.tones fun index _ => tonePicked_of_ne_nil h index
    exact ⟨_, rfl, .chord hpicked (sortedFrom_sortTones _)⟩
  | _ => exact ⟨_, rfl, .copied rfl⟩

/-- The elements that the indices of a chord name have the tones that are picked. -/
theorem pickedTones_eq_flatMap {pool : List Event} (h : pool ≠ []) (indices : List Pitch) :
    ∃ picked, List.Forall₂ (fun (index : Pitch) => AtIndex pool index.degree) indices picked ∧
      pickedTones pool indices = picked.flatMap tonesOf := by
  induction indices with
  | nil => exact ⟨[], .nil, rfl⟩
  | cons index more ih =>
    obtain ⟨e, he, hindex⟩ := exists_atIndex h index.degree
    obtain ⟨picked, hpicked, htones⟩ := ih
    refine ⟨e :: picked, .cons hindex hpicked, ?_⟩
    have hfirst : pickedTones pool (index :: more) = tonesOf e ++ pickedTones pool more := by
      simp only [pickedTones, List.flatMap_cons, he, Option.map_some, Option.getD_some]
    rw [hfirst, htones, List.flatMap_cons]

theorem pickHorizontal_singleton {pool : List Event} (h : pool ≠ []) (i : Event) :
    ∃ e, pickHorizontal pool i = [e] ∧ PickedFromList pool i e := by
  cases i with
  | pitch index =>
    obtain ⟨e, he, hindex⟩ := exists_atIndex h index.degree
    exact ⟨e, by rw [pickHorizontal, he]; rfl, .pitch hindex⟩
  | chord c =>
    obtain ⟨picked, hpicked, htones⟩ := pickedTones_eq_flatMap h c.tones
    refine ⟨_, rfl, .chord hpicked ?_⟩
    rw [← htones]
    exact sortedFrom_sortTones (pickedTones pool c.tones)
  | _ => exact ⟨_, rfl, .copied rfl⟩

/-! ### Whole lists -/

/-- Pitches, and the chords that have a tone. -/
def sounding (events : List Event) : List Event := events.filter fun e => !(tonesOf e).isEmpty

theorem vertical_eq_flatMap (left indices : List Event) :
    vertical left indices = (sounding left ×ˢ indices).flatMap fun pair => pickVertical (tonesOf pair.1) pair.2 := by
  rw [vertical, List.filter_map, List.flatMap_map]
  exact flatMap_flatMap_eq_product (fun l => pickVertical (tonesOf l)) _ indices

/-- **Arpeggios pick in range and in order.**  Over the tones of every pitch and
    chord on the left, or over the list on the left as a whole, every index event
    yields one event, at its place, and an index of any size picks at the place
    it wraps around to.  An empty list has nothing to pick. -/
theorem arpeggios_pick_in_order (left indices : List Event) :
    List.Forall₂ (fun pair e => PickedFromTones (tonesOf pair.1) pair.2 e) (sounding left ×ˢ indices)
        (vertical left indices) ∧
      horizontal [] indices = [] ∧
      (left ≠ [] → List.Forall₂ (PickedFromList left) indices (horizontal left indices)) := by
  refine ⟨?_, rfl, fun hleft => ?_⟩
  · rw [vertical_eq_flatMap]
    refine forall₂_flatMap_of_singleton _ fun pair hpair => ?_
    have hsounding : (tonesOf pair.1) ≠ [] := by
      have hmem := (List.mem_filter.mp (List.mem_product.mp hpair).1).2
      simpa using hmem
    exact pickVertical_singleton hsounding pair.2
  · have hpool : left.isEmpty = false := by simpa using hleft
    rw [horizontal, hpool]
    exact forall₂_flatMap_of_singleton _ fun i _ => pickHorizontal_singleton hleft i

/-- The lowest degree of all is one above a multiple of three: it picks the chord
    between a pitch and a rest. -/
theorem lowest_degree_picks_chord :
    let chord : Event := .chord { text := "02", tones := [.ofDegree 0, .ofDegree 2] }
    let pool : List Event := [.pitch (.ofDegree 7), chord, .rest { text := "r" }]
    let index : Event := .pitch (.ofDegree (-2147483648))
    horizontal pool [index] = [chord] ∧ PickedFromList pool index chord := by
  intro chord pool index
  have hpicked := (arpeggios_pick_in_order pool [index]).2.2 (List.cons_ne_nil _ _)
  have hchord : horizontal pool [index] = [chord] := by
    simp [horizontal, pickHorizontal, wrapped?, pool, index, Pitch.ofDegree]
  rw [hchord] at hpicked
  exact ⟨hchord, (List.forall₂_cons.mp hpicked).1⟩

end ListArithmetic

end NumberedMelody
