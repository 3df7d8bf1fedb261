/-
  NumberedMelody/Proofs/Evaluation/Inversions.lean
  ================================================
  **Inversions.**  The turns of an inversion go round the sorted tones, from the
  lowest upwards or from the highest downwards, and no tone changes its place
  before all turns are made.  So each tone has as many turns as leave its rank
  as a remainder (`afterTurns_eq_mapIdx`), and with every turn it is moved by an
  octave of its own scale (`iterate_shiftOctave`); then all are sorted again
  (`inversion_moves_by_rank`).  Whichever tone a turn comes to, it is worth one
  octave, and so the octaves of a chord change by the number of its inversions.
-/
import Mathlib.Algebra.BigOperators.Group.List.Basic
import Mathlib.Algebra.Order.Ring.Int
import Mathlib.Tactic.Ring
import NumberedMelody.Proofs.Evaluation.Arpeggios

namespace NumberedMelody

open ListArithmetic (SortedFrom sortedFrom_sortTones)

/-! ### Moves by octaves -/

namespace Pitch

/-- A tone so many octaves away, an octave being the span of its own scale, or
    twelve semitones without one.  Octave, note and frequency are moved, and all
    else is kept. -/
def moved (p : Pitch) (octaves : Nat) (direction : Int) : Pitch :=
  let shift := (p.scale.map Scale.span).getD 12.0 * Float.ofInt direction
  { p with
    octave := if octaves = 0 then p.octave else some (p.octave.getD 0 + octaves * direction)
    note := p.note.map (· + octaves * Binary64.round32 shift)
    frequency := if p.note.isSome then p.frequency.map (· * Harmony.raise (shift / 12.0))^[octaves] else p.frequency }

theorem moved_zero (p : Pitch) (direction : Int) : p.moved 0 direction = p := by
  cases p
  simp [moved]

theorem getD_octave_moved (p : Pitch) (octaves : Nat) (direction : Int) :
    (p.moved octaves direction).octave.getD 0 = p.octave.getD 0 + octaves * direction := by
  rcases Nat.eq_zero_or_pos octaves with rfl | hpos
  · simp [moved]
  · simp [moved, hpos.ne']

theorem shiftOctave_moved (p : Pitch) (octaves : Nat) (direction : Int) :
    (p.moved octaves direction).shiftOctave direction = p.moved (octaves + 1) direction := by
  have hoctave : (p.moved octaves direction).octave.getD 0 + direction =
      p.octave.getD 0 + (octaves + 1 : Nat) * direction := by
    rw [getD_octave_moved, Nat.cast_succ, add_one_mul, add_assoc]
  have hnote (note shift : Int) : note + octaves * shift + shift = note + (octaves + 1 : Nat) * shift := by
    rw [Nat.cast_succ, add_one_mul, add_assoc]
  unfold shiftOctave
  rw [hoctave]
  rcases hsounds : p.note with _ | note
  · simp [moved, hsounds]
  · simp [moved, hsounds, hnote, Function.iterate_succ', -Function.iterate_succ]

/-- **So many moves by an octave are one move by so many octaves.** -/
theorem iterate_shiftOctave (p : Pitch) (octaves : Nat) (direction : Int) :
    (Pitch.shiftOctave · direction)^[octaves] p = p.moved octaves direction := by
  induction octaves with
  | zero => exact (p.moved_zero direction).symm
  | succ octaves ih => rw [Function.iterate_succ_apply', ih, shiftOctave_moved]

theorem getD_octave_shiftOctave (p : Pitch) (direction : Int) :
    (p.shiftOctave direction).octave.getD 0 = p.octave.getD 0 + direction := by
  have hmoved : p.shiftOctave direction = p.moved 1 direction := p.iterate_shiftOctave 1 direction
  rw [hmoved, getD_octave_moved, Nat.cast_one, one_mul]

end Pitch

namespace Chord

/-! ### Turns -/

section Turns

variable {α : Type}

/-- How far a place is from the end at which the turns start. -/
def rank (size : Nat) (raising : Bool) (place : Nat) : Nat := if raising then place else size - 1 - place

/-- How many of so many turns leave a rank as their remainder. -/
def turnsAt (size times rank : Nat) : Nat := (List.range times).countP fun turn => turn % size = rank

theorem turnsAt_succ (size times rank : Nat) :
    turnsAt size (times + 1) rank = turnsAt size times rank + if times % size = rank then 1 else 0 := by
  simp [turnsAt, List.range_succ, List.countP_append, List.countP_singleton]

theorem turnPlace_lt {size : Nat} (hsize : 0 < size) (raising : Bool) (turn : Nat) :
    turnPlace size raising turn < size := by
  have hturn : turn % size < size := Nat.mod_lt turn hsize
  cases raising with
  | true => exact hturn
  | false =>
    simp only [turnPlace, Bool.false_eq_true, if_false]
    omega

theorem turnPlace_eq_iff {size place : Nat} (hplace : place < size) (raising : Bool) (turn : Nat) :
    turnPlace size raising turn = place ↔ turn % size = rank size raising place := by
  have hturn : turn % size < size := Nat.mod_lt turn (Nat.zero_lt_of_lt hplace)
  cases raising with
  | true => exact Iff.rfl
  | false =>
    simp only [turnPlace, rank, Bool.false_eq_true, if_false]
    omega

/-- What is left after so many turns that all do the same to the element they come to. -/
def afterTurns (f : α → α) (raising : Bool) (times : Nat) (tones : List α) : List α :=
  (List.range times).foldl (fun tones turn => tones.modify (turnPlace tones.length raising turn) f) tones

theorem turned_eq_afterTurns (tones : List Pitch) (inversions : Int) :
    turned tones inversions =
      afterTurns (Pitch.shiftOctave · inversions.sign) (decide (0 < inversions)) inversions.natAbs tones := rfl

theorem afterTurns_succ (f : α → α) (raising : Bool) (times : Nat) (tones : List α) :
    afterTurns f raising (times + 1) tones =
      (afterTurns f raising times tones).modify
        (turnPlace (afterTurns f raising times tones).length raising times) f := by
  simp [afterTurns, List.range_succ, List.foldl_append]

/-- **Every element has the turns of its rank.** -/
theorem afterTurns_eq_mapIdx (f : α → α) (raising : Bool) (times : Nat) (tones : List α) :
    afterTurns f raising times tones =
      tones.mapIdx fun place tone => f^[turnsAt tones.length times (rank tones.length raising place)] tone := by
  induction times with
  | zero =>
    apply List.ext_getElem?
    intro place
    simp [afterTurns, turnsAt]
  | succ times ih =>
    rw [afterTurns_succ, ih]
    apply List.ext_getElem?
    intro place
    rw [List.length_mapIdx, List.getElem?_modify, List.getElem?_mapIdx, List.getElem?_mapIdx]
    rcases htone : tones[place]? with _ | tone
    · rfl
    · obtain ⟨hplace, -⟩ := List.getElem?_eq_some_iff.mp htone
      -- the next turn comes to this place exactly if it leaves the rank of the place
      simp only [Option.map_some, Option.map_eq_map, turnsAt_succ, turnPlace_eq_iff hplace]
      split
      · rw [Function.iterate_succ_apply']
      · rfl

theorem length_afterTurns (f : α → α) (raising : Bool) (times : Nat) (tones : List α) :
    (afterTurns f raising times tones).length = tones.length := by
  rw [afterTurns_eq_mapIdx, List.length_mapIdx]

end Turns

theorem tones_invert {c : Chord} (hsome : c.tones ≠ []) {inversions : Int} (hinverts : inversions ≠ 0) :
    (c.invert inversions).tones = sortTones (turned (sortTones c.tones) inversions) := by
  simp [invert, hsome, hinverts]

/-! ### The octaves of a chord -/

/-- The octaves of some tones, added up. -/
def totalOctave (tones : List Pitch) : Int := (tones.map fun tone => tone.octave.getD 0).sum

theorem totalOctave_sortTones (tones : List Pitch) : totalOctave (sortTones tones) = totalOctave tones :=
  ((perm_sortTones tones).map _).sum_eq

theorem totalOctave_modify (tones : List Pitch) {place : Nat} (hplace : place < tones.length) (direction : Int) :
    totalOctave (tones.modify place (Pitch.shiftOctave · direction)) = totalOctave tones + direction := by
  induction tones generalizing place with
  | nil => exact absurd hplace (Nat.not_lt_zero place)
  | cons tone more ih =>
    cases place with
    | zero =>
      simp only [totalOctave, List.modify_zero_cons, List.map_cons, List.sum_cons, Pitch.getD_octave_shiftOctave]
      ring
    | succ place =>
      have hmore := ih (Nat.lt_of_succ_lt_succ hplace)
      simp only [totalOctave, List.modify_succ_cons, List.map_cons, List.sum_cons] at hmore ⊢
      rw [hmore, add_assoc]

theorem totalOctave_afterTurns {tones : List Pitch} (hsome : tones ≠ []) (direction : Int) (raising : Bool)
    (times : Nat) :
    totalOctave (afterTurns (Pitch.shiftOctave · direction) raising times tones) =
      totalOctave tones + times * direction := by
  induction times with
  | zero => simp [afterTurns]
  | succ times ih =>
    have hplace := turnPlace_lt (List.length_pos_iff.mpr hsome) raising times
    rw [← length_afterTurns (Pitch.shiftOctave · direction) raising times] at hplace
    rw [afterTurns_succ, totalOctave_modify _ hplace, ih, Nat.cast_succ, add_one_mul, add_assoc]

/-- **Every inversion is worth an octave**, up or down. -/
theorem totalOctave_invert {c : Chord} (hsome : c.tones ≠ []) (inversions : Int) :
    totalOctave (c.invert inversions).tones = totalOctave c.tones + inversions := by
  by_cases hzero : inversions = 0
  · rw [hzero, invert_zero, add_zero]
  · have hsorted : sortTones c.tones ≠ [] := by
      rw [← List.length_pos_iff, length_sortTones]
      exact List.length_pos_iff.mpr hsome
    have hsigned : (inversions.natAbs : Int) * inversions.sign = inversions :=
      (Int.mul_comm ..).trans (Int.sign_mul_natAbs inversions)
    rw [tones_invert hsome hzero, totalOctave_sortTones, turned_eq_afterTurns, totalOctave_afterTurns hsorted,
      totalOctave_sortTones, hsigned]

theorem totalOctave_resolve {c : Chord} (hsome : c.tones ≠ []) (o : Options) :
    totalOctave (c.resolve o).tones =
      totalOctave (c.tones.map (Pitch.resolve · (c.overrides.apply o))) + c.inversions.getD 0 := by
  have hresolved : c.tones.map (Pitch.resolve · (c.overrides.apply o)) ≠ [] := by
    rwa [Ne, List.map_eq_nil_iff]
  simp only [resolve, sort]
  rw [totalOctave_sortTones, totalOctave_invert hresolved]

/-! ### Inversions -/

/-- **Inversions move the right tones.**  The tones are ranked by note, from the
    lowest if they are raised and from the highest if they are lowered, tones of
    one note in the order in which they came.  Every tone is moved by as many
    octaves as there are turns that leave its rank as a remainder, and the moved
    tones are sorted again.  So the octaves of a chord change by the number of
    inversions with which it is resolved. -/
theorem inversion_moves_by_rank (c : Chord) (hsome : c.tones ≠ []) {inversions : Int} (hinverts : inversions ≠ 0) :
    (∃ ranked, SortedFrom c.tones ranked ∧
      SortedFrom
        (ranked.mapIdx fun place tone =>
          tone.moved (turnsAt ranked.length inversions.natAbs (rank ranked.length (decide (0 < inversions)) place))
            inversions.sign)
        (c.invert inversions).tones) ∧
    ∀ options, totalOctave ({ c with inversions := some inversions }.resolve options).tones =
      totalOctave ({ c with inversions := none }.resolve options).tones + inversions := by
  constructor
  · refine ⟨sortTones c.tones, sortedFrom_sortTones c.tones, ?_⟩
    rw [tones_invert hsome hinverts, turned_eq_afterTurns, afterTurns_eq_mapIdx]
    simp only [Pitch.iterate_shiftOctave]
    exact sortedFrom_sortTones _
  · intro options
    have hinverted := totalOctave_resolve (c := { c with inversions := some inversions }) hsome options
    have hplain := totalOctave_resolve (c := { c with inversions := none }) hsome options
    rw [hinverted, hplain, Option.getD_some, Option.getD_none, add_zero]

/-- Three tones over different scales, two of them on one note. -/
def unlikeTones : Chord where
  text := "200"
  tones :=
    [{ text := "2", degree := 2, octave := some 0, note := some 64, scale := some (.named Scale.ionian) },
      { text := "0", degree := 0, octave := some 0, note := some 60 },
      { text := "0", degree := 0, octave := some 1, note := some 60, scale := some (.steps [1.5, 1.0]) }]

/-- Four inversions down from the highest of three tones: it comes up twice, and
    the span of the fractional scale is rounded. -/
theorem unlikeTones_lowered :
    unlikeTones.tones ≠ [] ∧ (-4 : Int) ≠ 0 ∧
      (unlikeTones.invert (-4)).tones.map (fun tone => (tone.degree, tone.octave, tone.note)) =
        [(2, some (-2), some 40), (0, some (-1), some 48), (0, some 0, some 57)] ∧
      totalOctave ({ unlikeTones with inversions := some (-4) }.resolve {}).tones =
        totalOctave ({ unlikeTones with inversions := none }.resolve {}).tones + -4 ∧
      ∃ ranked, SortedFrom unlikeTones.tones ranked ∧
        SortedFrom
          (ranked.mapIdx fun place tone => tone.moved (turnsAt ranked.length 4 (rank ranked.length false place)) (-1))
          (unlikeTones.invert (-4)).tones := by
  have hsome : unlikeTones.tones ≠ [] := List.cons_ne_nil _ _
  have hinverts : (-4 : Int) ≠ 0 := by decide
  obtain ⟨hmoved, htotal⟩ := unlikeTones.inversion_moves_by_rank hsome hinverts
  exact ⟨hsome, hinverts, by decide +kernel, htotal {}, hmoved⟩

end Chord

end NumberedMelody
