/-
  NumberedMelody/Proofs/Decimal/Shortest.lean
  ===========================================
  **The fewest digits read back.**  Comparing by cross-multiplication is
  comparing, so the search takes a decimal from the interval of the double
  only, and on a grid finer than half of the distance between doubles it finds
  one.  The grids that it goes through are fine enough at the end, so the
  decimal that it ends with always lies in the interval of the double.
-/
import Mathlib
import NumberedMelody.Decimal.Shortest
import NumberedMelody.Proofs.Decimal.Nearest
import NumberedMelody.Proofs.Decimal.Numerals

namespace NumberedMelody.Decimal

open Binary64

variable {tie : Tie} {m : ℕ} {q : ℤ}

/-! ### Comparing on one scale -/

theorem zpow_mul_pow_toNat {b : ℚ} (hb : b ≠ 0) (n : ℤ) : b ^ n * b ^ (-n).toNat = b ^ n.toNat := by
  rw [← zpow_natCast, ← zpow_natCast, ← zpow_add₀ hb]
  congr 1
  omega

/-- The two naturals are the two numbers on a common scale. -/
theorem scaled_eq (a : ℕ) (i : ℤ) (c : ℕ) (k : ℤ) :
    ∃ unit : ℚ, 0 < unit ∧ (scaled a i c k).1 = a * 2 ^ i * unit ∧ (scaled a i c k).2 = c * 10 ^ k * unit := by
  refine ⟨2 ^ (-i).toNat * 10 ^ (-k).toNat, by positivity, ?_, ?_⟩
  · have hscale := zpow_mul_pow_toNat (b := 2) (by norm_num) i
    simp only [scaled, Nat.pow_eq]
    push_cast
    rw [← hscale]
    ring
  · have hscale := zpow_mul_pow_toNat (b := 10) (by norm_num) k
    simp only [scaled, Nat.pow_eq]
    push_cast
    rw [← hscale]
    ring

theorem compareScaled_eq (a : ℕ) (i : ℤ) (c : ℕ) (k : ℤ) :
    compareScaled a i c k = compare (a * 2 ^ i : ℚ) (c * 10 ^ k) := by
  obtain ⟨unit, hunit, hleft, hright⟩ := scaled_eq a i c k
  change compare (scaled a i c k).1 (scaled a i c k).2 = _
  rcases lt_trichotomy (a * 2 ^ i : ℚ) (c * 10 ^ k) with hlt | heq | hgt
  · have hscaled : (scaled a i c k).1 < (scaled a i c k).2 := by
      have := mul_lt_mul_of_pos_right hlt hunit
      rw [← hleft, ← hright] at this
      exact_mod_cast this
    rw [compare_lt_iff_lt.mpr hscaled, compare_lt_iff_lt.mpr hlt]
  · have hscaled : (scaled a i c k).1 = (scaled a i c k).2 := by
      rw [heq, ← hright] at hleft
      exact_mod_cast hleft
    rw [compare_eq_iff_eq.mpr hscaled, compare_eq_iff_eq.mpr heq]
  · have hscaled : (scaled a i c k).2 < (scaled a i c k).1 := by
      have := mul_lt_mul_of_pos_right hgt hunit
      rw [← hleft, ← hright] at this
      exact_mod_cast this
    rw [compare_gt_iff_gt.mpr hscaled, compare_gt_iff_gt.mpr hgt]

/-- The test for reading back is the interval of the double. -/
theorem readsBack_iff (m : ℕ) (q : ℤ) (c : ℕ) (k : ℤ) : readsBack m q c k = true ↔ RoundsTo (c * 10 ^ k) m q := by
  have htest : readsBack m q c k = true ↔
      ((lowEnd m q * 2 ^ (q - 2) : ℚ) < c * 10 ^ k ∨ m % 2 = 0 ∧ (lowEnd m q * 2 ^ (q - 2) : ℚ) = c * 10 ^ k) ∧
        ((c * 10 ^ k : ℚ) < (4 * m + 2) * 2 ^ (q - 2) ∨ m % 2 = 0 ∧ ((4 * m + 2) * 2 ^ (q - 2) : ℚ) = c * 10 ^ k) := by
    unfold readsBack
    simp only [compareScaled_eq, Nat.pow_eq]
    rw [← lowEnd]
    simp [compare_lt_iff_lt, compare_gt_iff_gt]
  rw [htest]
  constructor
  · rintro ⟨hlow, hhigh⟩
    refine ⟨?_, ?_, fun hodd => ⟨?_, ?_⟩⟩
    · exact hlow.elim le_of_lt fun h => h.2.le
    · exact hhigh.elim le_of_lt fun h => h.2.ge
    · exact hlow.resolve_right fun h => by omega
    · exact hhigh.resolve_right fun h => by omega
  · rintro ⟨hlow, hhigh, hodd⟩
    rcases Nat.mod_two_eq_zero_or_one m with heven | hodd'
    · refine ⟨?_, ?_⟩
      · exact hlow.lt_or_eq.imp_right fun h => ⟨heven, h⟩
      · exact hhigh.lt_or_eq.imp_right fun h => ⟨heven, h.symm⟩
    · exact ⟨.inl (hodd hodd').1, .inl (hodd hodd').2⟩

/-! ### Finding a decimal -/

theorem gridFloor_le (m : ℕ) (q k : ℤ) :
    (gridFloor m q k * 10 ^ k : ℚ) ≤ m * 2 ^ q ∧ (m * 2 ^ q : ℚ) < (gridFloor m q k + 1) * 10 ^ k := by
  obtain ⟨unit, hunit, hleft, hright⟩ := scaled_eq m q 1 k
  rw [Nat.cast_one, one_mul] at hright
  have hfloor : gridFloor m q k = (scaled m q 1 k).1 / (scaled m q 1 k).2 := rfl
  generalize (scaled m q 1 k).1 = x at *
  generalize (scaled m q 1 k).2 = y at *
  have hy : 0 < y := by
    have hpos : (0 : ℚ) < y := by
      rw [hright]
      positivity
    exact_mod_cast hpos
  have hle : ((x / y : ℕ) * y : ℚ) ≤ x := by exact_mod_cast Nat.div_mul_le_self x y
  have hlt : (x : ℚ) < ((x / y : ℕ) + 1) * y := by
    exact_mod_cast Nat.lt_mul_of_div_lt (Nat.lt_succ_self _) hy
  rw [hleft, hright, ← mul_assoc] at hle hlt
  rw [hfloor]
  exact ⟨le_of_mul_le_mul_right hle hunit, lt_of_mul_lt_mul_right hlt hunit.le⟩

/-- On a grid finer than half of the distance between doubles the next point reads back. -/
theorem readsBack_gridFloor_succ (hm : 0 < m) {k : ℤ} (hfine : (10 : ℚ) ^ k < 2 ^ (q - 1)) :
    readsBack m q (gridFloor m q k + 1) k = true := by
  obtain ⟨hle, hlt⟩ := gridFloor_le m q k
  have hunit : (0 : ℚ) < 2 ^ (q - 2) := by positivity
  have hend : (lowEnd m q : ℚ) < 4 * m := by
    have : lowEnd m q < 4 * m := by
      unfold lowEnd
      split <;> omega
    exact_mod_cast this
  have hscaled := mul_lt_mul_of_pos_right hend hunit
  rw [two_zpow_sub_two] at hle hlt
  rw [two_zpow_sub_one] at hfine
  rw [readsBack_iff]
  push_cast
  have hbelow : (lowEnd m q * 2 ^ (q - 2) : ℚ) < (gridFloor m q k + 1) * 10 ^ k := by linarith
  have habove : ((gridFloor m q k + 1) * 10 ^ k : ℚ) < (4 * m + 2) * 2 ^ (q - 2) := by linarith
  exact ⟨hbelow.le, habove.le, fun _ => ⟨hbelow, habove⟩⟩

theorem readsBack_of_onGrid {k : ℤ} {c : ℕ} (h : onGrid tie m q k = some c) : readsBack m q c k = true := by
  simp only [onGrid] at h
  split at h
  · next hfloor hnext =>
    obtain rfl := Option.some.inj h
    unfold nearer
    split
    · exact hfloor
    · exact hnext
    · exact hnext
    · split
      · exact hfloor
      · exact hnext
  · next hfloor _ => exact Option.some.inj h ▸ hfloor
  · next _ hnext => exact Option.some.inj h ▸ hnext
  · cases h

theorem onGrid_ne_none (hm : 0 < m) {k : ℤ} (hfine : (10 : ℚ) ^ k < 2 ^ (q - 1)) : onGrid tie m q k ≠ none := by
  have hnext := readsBack_gridFloor_succ hm hfine
  unfold onGrid
  simp only [hnext]
  cases readsBack m q (gridFloor m q k) k <;> simp

/-- The search ends on a point that reads back if it comes to a grid that is fine enough. -/
theorem readsBack_coarsest (hm : 0 < m) {grids steps : ℕ} {k : ℤ} (hsteps : steps < grids)
    (hfine : (10 : ℚ) ^ (k - steps) < 2 ^ (q - 1)) :
    readsBack m q (coarsest tie m q grids k).coefficient (coarsest tie m q grids k).exponent = true := by
  induction grids generalizing k steps with
  | zero => omega
  | succ grids ih =>
    unfold coarsest
    split
    · next c hfound => exact readsBack_of_onGrid hfound
    · next hnone =>
      cases steps with
      | zero =>
        rw [Nat.cast_zero, sub_zero] at hfine
        exact absurd hnone (onGrid_ne_none hm hfine)
      | succ steps =>
        refine ih (by omega : steps < grids) ?_
        rwa [Nat.cast_succ, ← sub_sub, sub_right_comm] at hfine

/-! ### Fine enough grids -/

/-- Powers of ten compared with powers of two by `2 ^ 93 ≤ 10 ^ 28` and `10 ^ 3 ≤ 2 ^ 10`. -/
theorem ten_zpow_lt_two_zpow {k n : ℤ} (hpositive : 0 ≤ k → 10 * k < 3 * n) (hnegative : k < 0 → 93 * k < 28 * n) :
    (10 : ℚ) ^ k < 2 ^ n := by
  rcases le_or_gt 0 k with hk | hk
  · refine lt_of_pow_lt_pow_left₀ 3 (by positivity) ?_
    obtain ⟨j, rfl⟩ := Int.eq_ofNat_of_zero_le hk
    have hpower : ((10 : ℚ) ^ j) ^ 3 ≤ (2 ^ 10) ^ j := by
      rw [← pow_mul, mul_comm j 3, pow_mul]
      exact pow_le_pow_left₀ (by norm_num) (by norm_num) j
    calc ((10 : ℚ) ^ (j : ℤ)) ^ 3 ≤ (2 ^ 10) ^ j := by rw [zpow_natCast]; exact hpower
      _ = 2 ^ (10 * (j : ℤ)) := by rw [← pow_mul, ← zpow_natCast]; congr 1
      _ < 2 ^ (n * 3) := zpow_lt_zpow_right₀ (by norm_num) (by have := hpositive hk; omega)
      _ = (2 ^ n) ^ 3 := by rw [zpow_mul]; rfl
  · refine lt_of_pow_lt_pow_left₀ 28 (by positivity) ?_
    obtain ⟨j, rfl⟩ : ∃ j : ℕ, k = -(j : ℤ) := ⟨k.natAbs, by omega⟩
    have hpower : ((2 : ℚ) ^ 93) ^ j ≤ (10 ^ j) ^ 28 := by
      rw [← pow_mul 10, mul_comm j 28, pow_mul]
      exact pow_le_pow_left₀ (by norm_num) (by norm_num) j
    calc ((10 : ℚ) ^ (-(j : ℤ))) ^ 28 = ((10 ^ j) ^ 28)⁻¹ := by rw [zpow_neg, zpow_natCast, inv_pow]
      _ ≤ ((2 ^ 93) ^ j)⁻¹ := inv_anti₀ (by positivity) hpower
      _ = 2 ^ (93 * (-(j : ℤ))) := by rw [← pow_mul, ← zpow_natCast, ← zpow_neg]; congr 1; push_cast; ring
      _ < 2 ^ (n * 28) := zpow_lt_zpow_right₀ (by norm_num) (by have := hnegative hk; omega)
      _ = (2 ^ n) ^ 28 := by rw [zpow_mul]; rfl

theorem fine_topGrid (h : Canonical m q) : (10 : ℚ) ^ (topGrid m q - (19 : ℕ)) < 2 ^ (q - 1) := by
  have hlog : m.log2 < 53 := (Nat.log2_lt h.pos.ne').mpr h.lt
  have hleast := h.low
  have hmost := h.high
  unfold topGrid
  refine ten_zpow_lt_two_zpow (fun _ => ?_) fun _ => ?_ <;> omega

/-- **The fewest digits read back**: they lie in the interval of the double. -/
theorem roundsTo_shortest (tie : Tie) (h : Canonical m q) :
    RoundsTo ((shortest tie m q).coefficient * 10 ^ (shortest tie m q).exponent) m q := by
  rw [← readsBack_iff]
  unfold shortest
  rw [if_neg h.pos.ne']
  exact readsBack_coarsest h.pos (by decide : 19 < 20) (fine_topGrid h)

/-! ### Reading the digits again -/

theorem coefficient_pos (tie : Tie) (h : Canonical m q) : 0 < (shortest tie m q).coefficient := by
  have hlow := (roundsTo_shortest tie h).low
  have hend := one_le_lowEnd h.pos q
  have hunit : (0 : ℚ) < 2 ^ (q - 2) := by positivity
  by_contra hzero
  rw [Nat.eq_zero_of_not_pos hzero, Nat.cast_zero, zero_mul] at hlow
  exact absurd (mul_pos (by linarith) hunit) (not_lt.mpr hlow)

/-- The shortest digits of a double around a point are read as the double without its sign. -/
theorem value_toFloat {x : Float} {negative : Bool} (hx : value x = .finite negative m q) {whole fraction : List Char}
    (h : Pointed whole fraction (shortest tie m q)) :
    value (⟨whole, some fraction, none⟩ : Numeral).toFloat = .finite false m q := by
  obtain ⟨finer, hdigits, hexponent⟩ := h.value
  have hread : (⟨whole, some fraction, none⟩ : Numeral).toFloat =
      nearest (digitsValue (whole ++ fraction)) (-(fraction.length : ℤ)) := by
    change nearest _ (0 - (fraction.length : ℤ)) = _
    rw [zero_sub]
    rfl
  rw [hread, hdigits]
  by_cases hm : m = 0
  · subst hm
    obtain rfl := exponent_of_value_zero hx
    have hzero : (shortest tie 0 (-1074)).coefficient = 0 := rfl
    rw [hzero, Nat.zero_mul]
    exact (by decide +kernel : value 0.0 = .finite false 0 (-1074))
  · have hcanonical := canonical_of_value hx (Nat.pos_of_ne_zero hm)
    have hvalue : (((shortest tie m q).coefficient * 10 ^ finer : ℕ) * 10 ^ (-(fraction.length : ℤ)) : ℚ) =
        (shortest tie m q).coefficient * 10 ^ (shortest tie m q).exponent := by
      rw [← hexponent, sub_eq_add_neg, zpow_add₀ (by norm_num), zpow_natCast]
      push_cast
      ring
    refine value_nearest (Nat.mul_pos (coefficient_pos tie hcanonical) (by positivity)) ?_ hcanonical
    rw [hvalue]
    exact roundsTo_shortest tie hcanonical

end NumberedMelody.Decimal
