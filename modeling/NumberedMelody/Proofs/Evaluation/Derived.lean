/-
  NumberedMelody/Proofs/Evaluation/Derived.lean
  =============================================
  **How operations make events.**  What an operation between lists hands on is
  a pitch with a new degree, a chord of such pitches that is resolved again, a
  pick by index, or an event it was given.  The cases are listed here once, with
  what they say of tones, so that an invariant of events is checked case by case
  without opening the operations again.
-/
import NumberedMelody.Proofs.Evaluation.Invariant
import NumberedMelody.Proofs.Event.Resolved

namespace NumberedMelody

namespace ListArithmetic

variable {o : Options} {e : Event}

/-- A pitch that is another one with a new degree. -/
def Derived (o : Options) (p : Pitch) : Prop := ∃ template degree, p = derive template degree o

/-! ### Arithmetic -/

theorem combinePitch_eq_ok {op : Arithmetic} {a p : Pitch} {degree : Int} (h : combinePitch op o a degree = .ok p) :
    ∃ result, op.apply a.degree degree = .ok result ∧ p = derive a result o := by
  obtain ⟨result, hresult, h⟩ := bind_eq_ok.mp h
  exact ⟨result, hresult, (Except.ok.inj h).symm⟩

theorem derived_of_combinePitch {op : Arithmetic} {a p : Pitch} {degree : Int}
    (h : combinePitch op o a degree = .ok p) : Derived o p := by
  obtain ⟨result, -, rfl⟩ := combinePitch_eq_ok h
  exact ⟨a, result, rfl⟩

theorem derived_of_mapPitch {expr : Expr} {a p : Pitch} (h : mapPitch expr o a = .ok p) : Derived o p := by
  obtain ⟨value, -, h⟩ := bind_eq_ok.mp h
  obtain rfl := Except.ok.inj h
  exact ⟨a, _, rfl⟩

theorem length_of_mapM_eq_ok {α β : Type} {f : α → Except Failure β} {xs : List α} {ys : List β}
    (h : xs.mapM f = .ok ys) : ys.length = xs.length :=
  (forall₂_of_mapM_eq_ok h).length_eq.symm

theorem flatten_ne_nil {α : Type} {rows : List (List α)} (hsome : rows ≠ []) (hrows : ∀ row ∈ rows, row ≠ []) :
    rows.flatten ≠ [] := by
  obtain ⟨row, hrow⟩ := List.exists_mem_of_ne_nil rows hsome
  intro hnil
  exact hrows row hrow (List.flatten_eq_nil_iff.mp hnil row hrow)

theorem combinePair_cases {op : Arithmetic} {l r : Event} (h : combinePair op o l r = .ok e) :
    (∃ p, Derived o p ∧ e = .pitch p) ∨
      ∃ tones, (∀ tone ∈ tones, Derived o tone) ∧ (tonesOf l ≠ [] → tonesOf r ≠ [] → tones ≠ []) ∧
        e = deriveChord tones o := by
  unfold combinePair at h
  split at h
  · obtain ⟨p, hp, h⟩ := bind_eq_ok.mp h
    obtain rfl := Except.ok.inj h
    exact .inl ⟨p, derived_of_combinePitch hp, rfl⟩
  · obtain ⟨rows, hrows, h⟩ := bind_eq_ok.mp h
    obtain rfl := Except.ok.inj h
    refine .inr ⟨rows.flatten, ?_, ?_, rfl⟩
    · intro tone htone
      obtain ⟨row, hrow, htone⟩ := List.mem_flatten.mp htone
      obtain ⟨a, -, hrow⟩ := mem_of_mapM_eq_ok hrows row hrow
      obtain ⟨b, -, hpitch⟩ := mem_of_mapM_eq_ok hrow tone htone
      exact derived_of_combinePitch hpitch
    · intro hl hr
      apply flatten_ne_nil
      · rw [← List.length_pos_iff, length_of_mapM_eq_ok hrows]
        exact List.length_pos_iff.mpr hl
      · intro row hrow
        obtain ⟨a, -, hrow⟩ := mem_of_mapM_eq_ok hrows row hrow
        rw [← List.length_pos_iff, length_of_mapM_eq_ok hrow]
        exact List.length_pos_iff.mpr hr

theorem mapEvent_cases {expr : Expr} {e' : Event} (h : mapEvent expr o e = .ok e') :
    (∃ p, Derived o p ∧ e' = .pitch p) ∨
      (∃ tones, e.isPitched = true ∧ (∀ tone ∈ tones, Derived o tone) ∧ (tonesOf e ≠ [] → tones ≠ []) ∧
        e' = deriveChord tones o) ∨
        e' = e := by
  cases e with
  | pitch a =>
    obtain ⟨p, hp, h⟩ := bind_eq_ok.mp h
    obtain rfl := Except.ok.inj h
    exact .inl ⟨p, derived_of_mapPitch hp, rfl⟩
  | chord c =>
    obtain ⟨tones, htones, h⟩ := bind_eq_ok.mp h
    obtain rfl := Except.ok.inj h
    refine .inr (.inl ⟨tones, rfl, ?_, ?_, rfl⟩)
    · intro tone htone
      obtain ⟨a, -, hp⟩ := mem_of_mapM_eq_ok htones tone htone
      exact derived_of_mapPitch hp
    · intro hc
      rw [← List.length_pos_iff, length_of_mapM_eq_ok htones]
      exact List.length_pos_iff.mpr hc
  | _ => exact .inr (.inr (Except.ok.inj h).symm)

/-! ### Picks by index -/

theorem exists_wrapped {α : Type} {xs : List α} (h : xs ≠ []) (index : Int) : ∃ x, wrapped? xs index = some x := by
  have hlength := List.length_pos_iff.mpr h
  have hlt : (index % (xs.length : Int)).toNat < xs.length := by
    have := Int.emod_nonneg index (by omega : (xs.length : Int) ≠ 0)
    have := Int.emod_lt_of_pos index (by omega : (0 : Int) < xs.length)
    omega
  exact ⟨_, List.getElem?_eq_getElem hlt⟩

theorem mem_of_wrapped {α : Type} {xs : List α} {index : Int} {x : α} (h : wrapped? xs index = some x) : x ∈ xs :=
  List.mem_of_getElem? h

theorem pickTone_eq_some {tones : List Pitch} {index tone : Pitch} (h : pickTone tones index = some tone) :
    ∃ picked ∈ tones, tone = { picked with duration := index.duration.or picked.duration } := by
  obtain ⟨picked, hpicked, rfl⟩ := Option.map_eq_some_iff.mp h
  exact ⟨picked, mem_of_wrapped hpicked, rfl⟩

theorem pickVertical_cases {tones : List Pitch} {i : Event} (h : e ∈ pickVertical tones i) :
    (∃ index tone, i = .pitch index ∧ pickTone tones index = some tone ∧ e = .pitch tone) ∨
      (∃ c, i = .chord c ∧
        e = .chord
          { text := c.text, tones := sortTones (c.tones.filterMap (pickTone tones)), duration := c.duration }) ∨
        e = i := by
  cases i with
  | pitch index =>
    obtain ⟨tone, htone, rfl⟩ := List.mem_map.mp h
    exact .inl ⟨index, tone, rfl, Option.mem_toList.mp htone, rfl⟩
  | chord c => exact .inr (.inl ⟨c, rfl, List.mem_singleton.mp h⟩)
  | _ => exact .inr (.inr (List.mem_singleton.mp h))

/-- The tones that the indices of a chord pick from a list of events. -/
def pickedTones (pool : List Event) (indices : List Pitch) : List Pitch :=
  indices.flatMap fun index => ((wrapped? pool index.degree).map tonesOf).getD []

theorem mem_pickedTones {pool : List Event} {indices : List Pitch} {tone : Pitch} :
    tone ∈ pickedTones pool indices ↔
      ∃ index ∈ indices, ∃ picked, wrapped? pool index.degree = some picked ∧ tone ∈ tonesOf picked := by
  unfold pickedTones
  rw [List.mem_flatMap]
  refine exists_congr fun index => and_congr_right fun _ => ?_
  cases wrapped? pool index.degree <;> simp

theorem pickHorizontal_cases {pool : List Event} {i : Event} (h : e ∈ pickHorizontal pool i) :
    e ∈ pool ∨
      (∃ c, i = .chord c ∧
        e = .chord
          { text := c.text
            tones := sortTones (pickedTones pool c.tones)
            duration := Chord.firstDuration (sortTones (pickedTones pool c.tones)) }) ∨
        e = i := by
  cases i with
  | pitch index => exact .inl (mem_of_wrapped (Option.mem_toList.mp h))
  | chord c => exact .inr (.inl ⟨c, rfl, List.mem_singleton.mp h⟩)
  | _ => exact .inr (.inr (List.mem_singleton.mp h))

/-! ### What holds of all tones, however long they last -/

section Tones

variable {P : Pitch → Prop}

theorem tones_setDuration (hlasting : ∀ p d, P p → P { p with duration := d }) (h : ∀ tone ∈ tonesOf e, P tone)
    (d : Float) : ∀ tone ∈ tonesOf (e.setDuration d), P tone := by
  cases e with
  | pitch p => exact List.forall_mem_singleton.mpr (hlasting p _ (h p (List.mem_singleton.mpr rfl)))
  | chord c =>
    intro tone htone
    obtain ⟨tone, hmem, rfl⟩ := List.mem_map.mp htone
    exact hlasting tone _ (h tone hmem)
  | polyphony text layers =>
    obtain ⟨stretched, heq⟩ := Event.setDuration_polyphony text layers d
    rw [heq]
    exact List.forall_mem_nil _
  | _ => exact List.forall_mem_nil _

theorem tones_pickVertical (hlasting : ∀ p d, P p → P { p with duration := d }) {tones : List Pitch} {i : Event}
    (htones : ∀ tone ∈ tones, P tone) (hi : ∀ tone ∈ tonesOf i, P tone) (h : e ∈ pickVertical tones i) :
    ∀ tone ∈ tonesOf e, P tone := by
  have hpicked : ∀ {index tone}, pickTone tones index = some tone → P tone := by
    intro index tone hpick
    obtain ⟨picked, hmem, rfl⟩ := pickTone_eq_some hpick
    exact hlasting picked _ (htones picked hmem)
  rcases pickVertical_cases h with ⟨index, tone, -, hpick, rfl⟩ | ⟨c, -, rfl⟩ | rfl
  · exact List.forall_mem_singleton.mpr (hpicked hpick)
  · intro tone htone
    obtain ⟨index, -, hpick⟩ := List.mem_filterMap.mp (mem_sortTones.mp htone)
    exact hpicked hpick
  · exact hi

theorem tones_pickHorizontal {pool : List Event} {i : Event} (hpool : ∀ e ∈ pool, ∀ tone ∈ tonesOf e, P tone)
    (hi : ∀ tone ∈ tonesOf i, P tone) (h : e ∈ pickHorizontal pool i) : ∀ tone ∈ tonesOf e, P tone := by
  rcases pickHorizontal_cases h with hmem | ⟨c, -, rfl⟩ | rfl
  · exact hpool e hmem
  · intro tone htone
    obtain ⟨index, -, picked, hpicked, htone⟩ := mem_pickedTones.mp (mem_sortTones.mp htone)
    exact hpool picked (mem_of_wrapped hpicked) tone htone
  · exact hi

end Tones

end ListArithmetic

/-! ### Numerals -/

/-- The chord of a numeral is made of the tones of its notes and resolved. -/
theorem RomanNumeral.chordFor_eq_ok {r : RomanNumeral} {options : Options} {c : Chord} (h : r.chordFor options = .ok c) :
    ∃ key scale degree shift, options.Tonal ∧
      c = ({ text := r.text
             tones := (Harmony.degreeChord degree r.chordName scale key.toMidi 1).map fun note =>
               tone options key scale (note + shift)
             inversions := r.inversions } : Chord).resolve options := by
  unfold RomanNumeral.chordFor at h
  split at h
  · next key scale hkey hscale =>
    split at h
    · cases h
    · next degree _ =>
      obtain rfl := Except.ok.inj h
      exact ⟨key, scale, degree, _, ⟨by rw [hkey]; rfl, by rw [hscale]; rfl⟩, rfl⟩
  · cases h

end NumberedMelody
