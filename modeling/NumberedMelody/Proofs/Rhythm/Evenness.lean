/-
  NumberedMelody/Proofs/Rhythm/Evenness.lean
  ==========================================
  **Euclidean rhythms are maximally even.**  The remainder of the pulses drops
  exactly where their quotient grows, and it never grows by more than one.  So
  the onsets of consecutive steps add up to the growth of the quotient over all
  of them, around the end of the rhythm too, and that is the share of the steps
  in the pulses, rounded down or up (`maximally_even`).
-/
import Mathlib.Data.Int.ModEq
import Mathlib.Data.List.Rotate
import Mathlib.Data.Rat.Floor
import Mathlib.Tactic.Linarith
import NumberedMelody.Rhythm.Euclidean

namespace NumberedMelody.Rhythm

/-! ### Quotients of the pulses -/

/-- The pulses of so many steps, rounded down. -/
def quotient (pulses length : Nat) (t : Int) : Int := pulses * t / length

/-- What the quotient gains at a step. -/
def gain (pulses length : Nat) (t : Int) : Int := quotient pulses length t - quotient pulses length (t - 1)

section Quotients

variable {pulses length : Nat}

theorem quotient_add_length (pulses : Nat) (hlength : 1 ≤ length) (t laps : Int) :
    quotient pulses length (t + length * laps) = quotient pulses length t + pulses * laps := by
  have hsplit : pulses * (t + length * laps) = pulses * t + pulses * laps * length := by ring
  rw [quotient, hsplit, Int.add_mul_ediv_right _ _ (by omega)]
  rfl

/-- A lap around the rhythm does not change what is gained. -/
theorem gain_emod (hlength : 1 ≤ length) (t : Int) : gain pulses length (t % length) = gain pulses length t := by
  have hlap : t = t % length + length * (t / length) := (Int.emod_add_mul_ediv t length).symm
  have hbefore : t - 1 = (t % length - 1) + length * (t / length) := by omega
  have ht := quotient_add_length pulses hlength (t % length) (t / length)
  have hs := quotient_add_length pulses hlength (t % length - 1) (t / length)
  rw [← hlap] at ht
  rw [← hbefore] at hs
  unfold gain
  rw [ht, hs]
  ring

/-- The quotient grows exactly where the remainder drops, and by one at most. -/
theorem gain_cases (hpulses : pulses < length) (t : Int) :
    (gain pulses length t = 1 ∧ pulses * t % length < pulses * (t - 1) % length) ∨
      (gain pulses length t = 0 ∧ ¬pulses * t % length < pulses * (t - 1) % length) := by
  have hstep : (pulses : Int) * t = pulses * (t - 1) + pulses := by ring
  have hafter := Int.emod_add_mul_ediv (pulses * t) length
  have hbefore := Int.emod_add_mul_ediv (pulses * (t - 1)) length
  have hpos : (0 : Int) < length := by omega
  have hlow := Int.emod_nonneg (pulses * t) hpos.ne'
  have hhigh := Int.emod_lt_of_pos (pulses * t) hpos
  have hlow' := Int.emod_nonneg (pulses * (t - 1)) hpos.ne'
  have hhigh' := Int.emod_lt_of_pos (pulses * (t - 1)) hpos
  -- all that is known of the gain is known of as many lengths
  have hgain : length * gain pulses length t =
      pulses + pulses * (t - 1) % length - pulses * t % length := by
    unfold gain quotient
    rw [mul_sub]
    omega
  have habove : gain pulses length t < 2 := by
    refine lt_of_mul_lt_mul_left ?_ hpos.le
    rw [hgain]
    omega
  have hbelow : -1 < gain pulses length t := by
    refine lt_of_mul_lt_mul_left ?_ hpos.le
    rw [hgain]
    omega
  obtain hnone | hone : gain pulses length t = 0 ∨ gain pulses length t = 1 := by omega
  · rw [hnone] at hgain
    exact .inr ⟨hnone, by omega⟩
  · rw [hone] at hgain
    exact .inl ⟨hone, by omega⟩

end Quotients

/-! ### Onsets -/

section Onsets

variable {pulses length : Nat}

/-- What is compared with the next step, around the end of the rhythm too. -/
theorem remainderBefore_next (i : Nat) : remainderBefore pulses length ((i + 1) % length) = pulses * i % length := by
  have hnext : ((((i + 1) % length : Nat) : Int) - 1) ≡ i [ZMOD length] := by
    have hmod : (((i + 1) % length : Nat) : Int) ≡ i + 1 [ZMOD length] := by
      rw [Int.natCast_mod]
      exact Int.mod_modEq _ _
    simpa using hmod.sub_right 1
  exact hnext.mul_left pulses

theorem isOnset_eq (hpulses : pulses < length) (i : Nat) :
    isOnset pulses length i = decide (gain pulses length i = 1) := by
  have hdrop : isOnset pulses length i = decide (pulses * (i : Int) % length < pulses * ((i : Int) - 1) % length) := by
    rw [isOnset, remainderBefore_next, remainderBefore]
  rw [hdrop]
  rcases gain_cases hpulses i with ⟨hgain, hless⟩ | ⟨hgain, hless⟩
  · simp [hgain, hless]
  · simp [hgain, hless]

theorem gain_full (hlength : 1 ≤ length) (t : Int) : gain length length t = 1 := by
  have hpos : (length : Int) ≠ 0 := by omega
  rw [gain, quotient, quotient, Int.mul_ediv_cancel_left _ hpos, Int.mul_ediv_cancel_left _ hpos]
  ring

theorem gain_eq_zero_or_one (hpulses : pulses ≤ length) (hlength : 1 ≤ length) (t : Int) :
    gain pulses length t = 0 ∨ gain pulses length t = 1 := by
  rcases Nat.lt_or_eq_of_le hpulses with hless | rfl
  · rcases gain_cases hless t with ⟨hgain, -⟩ | ⟨hgain, -⟩
    · exact .inr hgain
    · exact .inl hgain
  · exact .inr (gain_full hlength t)

@[simp] theorem length_euclidean (pulses length : Nat) (rotate : Int) :
    (euclidean pulses length rotate).length = length := by
  unfold euclidean
  split
  · exact List.length_replicate
  · rw [List.length_map, List.length_range]

/-- Every step of a rhythm, rotated or not, is an onset where the quotient grows. -/
theorem getElem?_euclidean (hpulses : pulses ≤ length) (rotate : Int) {i : Nat} (hi : i < length) :
    (euclidean pulses length rotate)[i]? = some (decide (gain pulses length (i - rotate) = 1)) := by
  have hlength : 1 ≤ length := by omega
  unfold euclidean
  by_cases hfull : length ≤ pulses
  · obtain rfl := Nat.le_antisymm hpulses hfull
    rw [if_pos hfull, List.getElem?_replicate_of_lt hi, gain_full hlength]
    rfl
  · have hplace := Int.emod_nonneg (i - rotate) (by omega : (length : Int) ≠ 0)
    rw [if_neg hfull, List.getElem?_map, List.getElem?_range hi, Option.map_some, isOnset_eq (Nat.lt_of_not_le hfull),
      Int.toNat_of_nonneg hplace, gain_emod hlength]

end Onsets

/-! ### Windows -/

section Windows

variable {pulses length : Nat}

/-- The onsets of consecutive steps, around the end of the rhythm too, are what
    the quotient grows by over all of them. -/
theorem count_window (hpulses : pulses ≤ length) (rotate : Int) (start : Nat) {size : Nat} (hsize : size ≤ length) :
    ((((euclidean pulses length rotate).rotate start).take size).count true : Int) =
      quotient pulses length (start - rotate - 1 + size) - quotient pulses length (start - rotate - 1) := by
  induction size with
  | zero => simp
  | succ size ih =>
    have hlength : 1 ≤ length := by omega
    have hplace : (size + start) % length < length := Nat.mod_lt _ hlength
    have hgain : gain pulses length (((size + start) % length : Nat) - rotate) =
        gain pulses length (start - rotate + size) := by
      rw [← gain_emod hlength, ← gain_emod hlength (start - rotate + size), Int.natCast_mod, Int.emod_sub_emod]
      congr 2
      push_cast
      ring
    have hlast : ((euclidean pulses length rotate).rotate start)[size]? =
        some (decide (gain pulses length (start - rotate + size) = 1)) := by
      rw [List.getElem?_rotate (by rw [length_euclidean]; omega), length_euclidean,
        getElem?_euclidean hpulses rotate hplace, hgain]
    have hstep : quotient pulses length (start - rotate - 1 + (size + 1 : Nat)) =
        quotient pulses length (start - rotate - 1 + size) + gain pulses length (start - rotate + size) := by
      have hbefore : (start - rotate + size - 1 : Int) = start - rotate - 1 + size := by ring
      have hafter : (start - rotate - 1 + (size + 1 : Nat) : Int) = start - rotate + size := by
        push_cast
        ring
      rw [gain, hbefore, hafter]
      ring
    have hcount : (((some (decide (gain pulses length (start - rotate + size) = 1))).toList.count true : Nat) : Int) =
        gain pulses length (start - rotate + size) := by
      rcases gain_eq_zero_or_one hpulses hlength (start - rotate + size) with hnone | hone
      · rw [hnone]
        rfl
      · rw [hone]
        rfl
    rw [List.take_add_one, hlast, List.count_append, Nat.cast_add, ih (by omega), hcount, hstep]
    ring

/-- An integer less than one from a number is the number rounded down or up. -/
theorem eq_floor_or_ceil {n : Int} {x : ℚ} (hbelow : x < n + 1) (habove : n < x + 1) : n = ⌊x⌋ ∨ n = ⌈x⌉ := by
  rcases le_or_gt (n : ℚ) x with hle | hgt
  · exact .inl (Int.floor_eq_iff.mpr ⟨hle, hbelow⟩).symm
  · exact .inr (Int.ceil_eq_iff.mpr ⟨by linarith, hgt.le⟩).symm

/-- Over so many steps the quotient grows by their share in the pulses, rounded down or up. -/
theorem quotient_growth (hlength : 1 ≤ length) (t : Int) (size : Nat) :
    let grown := quotient pulses length (t + size) - quotient pulses length t
    grown = ⌊(size * pulses / length : ℚ)⌋ ∨ grown = ⌈(size * pulses / length : ℚ)⌉ := by
  intro grown
  have hpos : (0 : Int) < length := by omega
  have hposq : (0 : ℚ) < length := by exact_mod_cast hpos
  have hafter := Int.emod_add_mul_ediv (pulses * (t + size)) length
  have hbefore := Int.emod_add_mul_ediv (pulses * t) length
  have hlow := Int.emod_nonneg (pulses * (t + size)) hpos.ne'
  have hhigh := Int.emod_lt_of_pos (pulses * (t + size)) hpos
  have hlow' := Int.emod_nonneg (pulses * t) hpos.ne'
  have hhigh' := Int.emod_lt_of_pos (pulses * t) hpos
  have hgrown : size * pulses = length * grown + pulses * (t + size) % length - pulses * t % length := by
    have hsplit : (pulses : Int) * (t + size) = pulses * t + size * pulses := by ring
    show (size : Int) * pulses = length * (quotient pulses length (t + size) - quotient pulses length t) + _ - _
    rw [mul_sub, quotient, quotient]
    omega
  apply eq_floor_or_ceil
  · rw [div_lt_iff₀ hposq]
    have hbound : (size * pulses : Int) < (grown + 1) * length := by
      rw [add_mul, mul_comm grown]
      omega
    exact_mod_cast hbound
  · rw [← sub_lt_iff_lt_add, lt_div_iff₀ hposq]
    have hbound : (grown - 1) * length < (size * pulses : Int) := by
      rw [sub_mul, mul_comm grown]
      omega
    exact_mod_cast hbound

end Windows

/-- **Euclidean rhythms are maximally even.**  Over any number of consecutive
    steps, around the end of the rhythm too, there are as many onsets as the share
    of these steps in the pulses, rounded down or up, and so all pulses over all
    steps.  A rotation moves every step, and without one the first step is an
    onset. -/
theorem maximally_even {pulses length : Nat} (hlength : 1 ≤ length) (hpulses : pulses ≤ length) (rotate : Int) :
    (euclidean pulses length rotate).length = length ∧
      (∀ start size, 1 ≤ size → size ≤ length →
        let onsets : Int := (((euclidean pulses length rotate).rotate start).take size).count true
        onsets = ⌊(size * pulses / length : ℚ)⌋ ∨ onsets = ⌈(size * pulses / length : ℚ)⌉) ∧
      (euclidean pulses length rotate).count true = pulses ∧
      (∀ i < length, (euclidean pulses length rotate)[i]? =
        (euclidean pulses length 0)[((i - rotate) % length).toNat]?) ∧
      (1 ≤ pulses → (euclidean pulses length 0)[0]? = some true) := by
  refine ⟨length_euclidean pulses length rotate, ?_, ?_, ?_, ?_⟩
  · intro start size _ hsize onsets
    rw [show onsets = _ from count_window hpulses rotate start hsize]
    exact quotient_growth hlength (start - rotate - 1) size
  · have hwhole := count_window hpulses rotate 0 (Nat.le_refl length)
    have hlap := quotient_add_length pulses hlength (((0 : Nat) : Int) - rotate - 1) 1
    rw [mul_one] at hlap
    rw [List.rotate_zero, List.take_of_length_le (length_euclidean pulses length rotate).le, hlap] at hwhole
    omega
  · intro i hi
    have hplace := Int.emod_nonneg (i - rotate) (by omega : (length : Int) ≠ 0)
    have hbelow := Int.emod_lt_of_pos (i - rotate) (by omega : (0 : Int) < length)
    rw [getElem?_euclidean hpulses rotate hi, getElem?_euclidean hpulses 0 (by omega), Int.toNat_of_nonneg hplace,
      sub_zero, gain_emod hlength]
  · intro hpulse
    rw [getElem?_euclidean hpulses 0 hlength]
    -- the quotient is zero at the first step and negative before it
    have hfirst : gain pulses length (((0 : Nat) : Int) - 0) = 1 := by
      have hbefore : quotient pulses length (((0 : Nat) : Int) - 0 - 1) = -1 := by
        rw [quotient, Int.ediv_eq_iff_of_pos (by omega)]
        constructor <;> omega
      rw [gain, hbefore]
      simp [quotient]
    rw [hfirst]
    rfl

/-- Three pulses over eight steps, one step to the left: across the end, two
    onsets in five steps. -/
theorem tresillo_maximally_even :
    1 ≤ 8 ∧ 3 ≤ 8 ∧ (((euclidean 3 8 (-1)).rotate 6).take 5).count true = 2 ∧
      (((((euclidean 3 8 (-1)).rotate 6).take 5).count true : Int) = ⌊((5 : Nat) * (3 : Nat) / (8 : Nat) : ℚ)⌋ ∨
        ((((euclidean 3 8 (-1)).rotate 6).take 5).count true : Int) = ⌈((5 : Nat) * (3 : Nat) / (8 : Nat) : ℚ)⌉) ∧
      (euclidean 3 8 0)[0]? = some true := by
  have hlength : 1 ≤ 8 := by decide
  have hpulses : 3 ≤ 8 := by decide
  obtain ⟨-, hwindows, -, -, hfirst⟩ := maximally_even hlength hpulses (-1)
  exact ⟨hlength, hpulses, by decide, hwindows 6 5 (by decide) (by decide), hfirst (by decide)⟩

end NumberedMelody.Rhythm
