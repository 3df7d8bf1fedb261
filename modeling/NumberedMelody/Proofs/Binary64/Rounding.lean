/-
  NumberedMelody/Proofs/Binary64/Rounding.lean
  ============================================
  **Rounding to a given double.**  The numbers that are nearest to
  `m · 2 ^ q` among the doubles form an interval (`RoundsTo`).  A product or a
  quotient of digits with enough of them, and what the two bits behind them
  say about the rest, is rounded to `m · 2 ^ q` if it lies in that interval,
  so that multiplying, dividing and scaling by powers of ten give that double.
-/
import Mathlib
import NumberedMelody.Proofs.Binary64.Encoding

namespace NumberedMelody.Binary64

open Float.Model (UnpackedFloat Format totalExponent)
open Float.Model.UnpackedFloat (Sign Accuracy ExtendedMantissa shiftToExponent shiftToTargetExponent
  roundWithAccuracy accuracyOfFraction divCore)

/-! ### Digits of a quotient -/

/-- The whole part of a quotient, the bit behind it, and whether anything is left behind that. -/
def quotientDigits (num den : Nat) : ExtendedMantissa :=
  ⟨num / den, 2 * num / den % 2 != 0, 2 * num % den != 0⟩

theorem shiftRightOne_quotientDigits (num : Nat) {den : Nat} (hden : 0 < den) :
    (quotientDigits num den).shiftRightOne = quotientDigits num (2 * den) := by
  have hsticky : (2 * num / den % 2 = 0 ∧ 2 * num % den = 0) ↔ 2 * num % (2 * den) = 0 := by
    constructor
    · rintro ⟨heven, hexact⟩
      obtain ⟨k, hk⟩ := Nat.dvd_of_mod_eq_zero hexact
      rw [hk, Nat.mul_div_cancel_left _ hden] at heven
      obtain ⟨j, rfl⟩ := Nat.dvd_of_mod_eq_zero heven
      exact Nat.mod_eq_zero_of_dvd ⟨j, by rw [hk]; ring⟩
    · intro hexact
      obtain ⟨k, hk⟩ := Nat.dvd_of_mod_eq_zero hexact
      have hsplit : 2 * num = den * (2 * k) := by rw [hk]; ring
      rw [hsplit, Nat.mul_div_cancel_left _ hden]
      exact ⟨Nat.mul_mod_right 2 k, Nat.mul_mod_right den _⟩
  have hsticky' : (2 * num / den % 2 != 0 || 2 * num % den != 0) = (2 * num % (2 * den) != 0) := by
    rw [Bool.eq_iff_iff]
    simp only [Bool.or_eq_true, bne_iff_ne]
    rw [← not_and_or, not_iff_not, hsticky]
  unfold quotientDigits ExtendedMantissa.shiftRightOne
  simp only [hsticky', Nat.div_div_eq_div_mul, Nat.mul_comm den 2, Nat.mul_div_mul_left _ _ Nat.two_pos]

theorem shiftRight_quotientDigits (num : Nat) {den : Nat} (hden : 0 < den) (n : Nat) :
    quotientDigits num den >>> n = quotientDigits num (2 ^ n * den) := by
  induction n with
  | zero => simp [HShiftRight.hShiftRight, Nat.repeat]
  | succ n ih =>
    change (quotientDigits num den >>> n).shiftRightOne = _
    rw [ih, shiftRightOne_quotientDigits num (by positivity), ← Nat.mul_assoc, ← Nat.pow_succ']

theorem ofMantissaAndAccuracy_exact (num : Nat) :
    ExtendedMantissa.ofMantissaAndAccuracy (num / 1) .exact = quotientDigits num 1 := by
  simp [ExtendedMantissa.ofMantissaAndAccuracy, quotientDigits, Nat.mod_one]

/-- The bits are those of the remainder. -/
theorem quotientDigits_eq (num : Nat) {den : Nat} (hden : 0 < den) :
    quotientDigits num den =
      ⟨num / den, decide (den ≤ 2 * (num % den)), decide (num % den ≠ 0 ∧ 2 * (num % den) ≠ den)⟩ := by
  have hremainder := Nat.mod_lt num hden
  have hdouble : 2 * num = 2 * (num % den) + den * (2 * (num / den)) := by
    conv => lhs; rw [← Nat.mod_add_div num den]
    ring
  unfold quotientDigits
  rw [hdouble, Nat.add_mul_div_left _ _ hden, Nat.add_mul_mod_self_left, Nat.add_mul_mod_self_left]
  by_cases hhalf : den ≤ 2 * (num % den)
  · have hbit : 2 * (num % den) / den = 1 := Nat.div_eq_of_lt_le (by omega) (by omega)
    have hrest : 2 * (num % den) % den = 2 * (num % den) - den := by
      rw [Nat.mod_eq_sub_mod hhalf, Nat.mod_eq_of_lt (by omega)]
    congr 1
    · simp [hbit, hhalf]
    · rw [hrest, Bool.eq_iff_iff, bne_iff_ne, decide_eq_true_eq]
      omega
  · have hbit : 2 * (num % den) / den = 0 := Nat.div_eq_of_lt (by omega)
    have hrest : 2 * (num % den) % den = 2 * (num % den) := Nat.mod_eq_of_lt (by omega)
    congr 1
    · simp [hbit, hhalf]
    · rw [hrest, Bool.eq_iff_iff, bne_iff_ne, decide_eq_true_eq]
      omega

theorem ofMantissaAndAccuracy_fraction (num : Nat) {den : Nat} (hden : 0 < den) :
    ExtendedMantissa.ofMantissaAndAccuracy (num / den) (accuracyOfFraction (num % den) den) =
      quotientDigits num den := by
  rw [quotientDigits_eq num hden]
  unfold accuracyOfFraction
  split
  · next hzero =>
    rw [hzero]
    simp [ExtendedMantissa.ofMantissaAndAccuracy, hden.ne']
  · next hsome =>
    rcases Nat.lt_trichotomy (2 * (num % den)) den with hlt | heq | hgt
    · rw [Nat.compare_eq_lt.mpr hlt]
      simp [ExtendedMantissa.ofMantissaAndAccuracy, hsome, hlt, hlt.ne]
    · rw [Nat.compare_eq_eq.mpr heq]
      simp [ExtendedMantissa.ofMantissaAndAccuracy, heq]
    · rw [Nat.compare_eq_gt.mpr hgt]
      simp [ExtendedMantissa.ofMantissaAndAccuracy, hsome, hgt.le, hgt.ne']

/-- A number is nearest to an integer, of two integers to the even one. -/
def NearestTo (x : ℚ) (n : ℕ) : Prop := |x - n| ≤ 1 / 2 ∧ (|x - n| = 1 / 2 → n % 2 = 0)

/-- The same in terms of the double of a numerator. -/
theorem NearestTo.bounds {num den n : Nat} (h : NearestTo (num / den) n) (hden : 0 < den) :
    2 * n * den ≤ 2 * num + den ∧ 2 * num ≤ 2 * n * den + den ∧
      (2 * num + den = 2 * n * den ∨ 2 * num = 2 * n * den + den → n % 2 = 0) := by
  have hpos : (0 : ℚ) < den := by exact_mod_cast hden
  obtain ⟨hnear, htie⟩ := h
  rw [abs_le, le_sub_iff_add_le, sub_le_iff_le_add, le_div_iff₀ hpos, div_le_iff₀ hpos] at hnear
  have hlow : 2 * n * den ≤ 2 * num + den := by exact_mod_cast (by linarith : (2 * n * den : ℚ) ≤ 2 * num + den)
  have hhigh : 2 * num ≤ 2 * n * den + den := by exact_mod_cast (by linarith : (2 * num : ℚ) ≤ 2 * n * den + den)
  refine ⟨hlow, hhigh, fun hhalf => htie ?_⟩
  rcases hhalf with hbelow | habove
  · have hcast : (2 * num + den : ℚ) = 2 * n * den := by exact_mod_cast hbelow
    have hquotient : (num / den : ℚ) = n - 1 / 2 := by rw [div_eq_iff hpos.ne']; linarith
    rw [hquotient]
    norm_num
  · have hcast : (2 * num : ℚ) = 2 * n * den + den := by exact_mod_cast habove
    have hquotient : (num / den : ℚ) = n + 1 / 2 := by rw [div_eq_iff hpos.ne']; linarith
    rw [hquotient]
    norm_num

theorem roundedMantissa_quotientDigits {num den n : Nat} (hden : 0 < den) (h : NearestTo (num / den) n) :
    (quotientDigits num den).roundedMantissa = n := by
  obtain ⟨hlow, hhigh, heven⟩ := h.bounds hden
  have hremainder := Nat.mod_lt num hden
  have hnum : 2 * num = 2 * (num % den) + 2 * (num / den) * den := by
    conv => lhs; rw [← Nat.mod_add_div num den]
    ring
  rw [quotientDigits_eq num hden]
  generalize num / den = whole at *
  generalize num % den = remainder at *
  have hnext : n = whole ∨ n = whole + 1 := by
    have hle : 2 * whole < 2 * n + 2 := Nat.lt_of_mul_lt_mul_right (a := den) (by linarith)
    have hlt : 2 * n < 2 * whole + 3 := Nat.lt_of_mul_lt_mul_right (a := den) (by linarith)
    omega
  -- the remainder is less than half, half, or more than half of the divisor
  rcases Nat.lt_trichotomy (2 * remainder) den with hless | hhalf | hmore
  · obtain rfl : n = whole := hnext.resolve_right (by rintro rfl; linarith)
    have hbit : ¬ den ≤ 2 * remainder := by omega
    by_cases hzero : remainder = 0 <;>
      simp [ExtendedMantissa.roundedMantissa, ExtendedMantissa.accuracy, Accuracy.roundToNearestEven, hzero, hbit,
        hless.ne, hden.ne']
  · have hrounded : whole + whole % 2 = n := by
      rcases hnext with rfl | rfl
      · have := heven (.inr (by linarith))
        omega
      · have := heven (.inl (by linarith))
        omega
    simp [ExtendedMantissa.roundedMantissa, ExtendedMantissa.accuracy, Accuracy.roundToNearestEven, hhalf, hrounded]
  · obtain rfl : n = whole + 1 := hnext.resolve_left (by rintro rfl; linarith)
    have hsome : remainder ≠ 0 := by omega
    simp [ExtendedMantissa.roundedMantissa, ExtendedMantissa.accuracy, Accuracy.roundToNearestEven, hmore.le, hmore.ne',
      hsome]

/-! ### The interval of a double -/

/-- The lower end of the interval in quarters of `2 ^ q`; just above a power of
    two the doubles below are twice as dense. -/
def lowEnd (m : ℕ) (q : ℤ) : ℕ := if m = 2 ^ 52 ∧ -1074 < q then 4 * m - 1 else 4 * m - 2

/-- The number is among those that are nearest to the double `m · 2 ^ q`; the
    ends of the interval are if `m` is even. -/
structure RoundsTo (v : ℚ) (m : ℕ) (q : ℤ) : Prop where
  low : lowEnd m q * 2 ^ (q - 2) ≤ v
  high : v ≤ (4 * m + 2) * 2 ^ (q - 2)
  odd : m % 2 = 1 → lowEnd m q * 2 ^ (q - 2) < v ∧ v < (4 * m + 2) * 2 ^ (q - 2)

theorem two_zpow_sub_two (q : ℤ) : (2 : ℚ) ^ q = 4 * 2 ^ (q - 2) := by
  have hsplit : (2 : ℚ) ^ q = 2 ^ (2 + (q - 2)) := by congr 1; ring
  rw [hsplit, zpow_add₀ (by norm_num)]
  norm_num

theorem two_zpow_sub_one (q : ℤ) : (2 : ℚ) ^ (q - 1) = 2 * 2 ^ (q - 2) := by
  have hsplit : (2 : ℚ) ^ (q - 1) = 2 ^ (1 + (q - 2)) := by congr 1; ring
  rw [hsplit, zpow_add₀ (by norm_num), zpow_one]

theorem le_lowEnd {m : ℕ} (hm : 0 < m) (q : ℤ) : (4 * m - 2 : ℚ) ≤ lowEnd m q := by
  have hle : 4 * m ≤ lowEnd m q + 2 := by
    unfold lowEnd
    split <;> omega
  have hcast : (4 * m : ℚ) ≤ lowEnd m q + 2 := by exact_mod_cast hle
  linarith

theorem one_le_lowEnd {m : ℕ} (hm : 0 < m) (q : ℤ) : (1 : ℚ) ≤ lowEnd m q := by
  have hone : (1 : ℚ) ≤ m := by exact_mod_cast hm
  have := le_lowEnd hm q
  linarith

variable {v : ℚ} {m : ℕ} {q : ℤ}

theorem RoundsTo.nearestTo (h : RoundsTo v m q) (hm : 0 < m) : NearestTo (v / 2 ^ q) m := by
  have hunit : (0 : ℚ) < 2 ^ (q - 2) := by positivity
  have hend := mul_le_mul_of_nonneg_right (le_lowEnd hm q) hunit.le
  have hdistance : v / 2 ^ q - m = (v - 4 * m * 2 ^ (q - 2)) / (4 * 2 ^ (q - 2)) := by
    rw [two_zpow_sub_two]
    field_simp
  have hlow := h.low
  have hhigh := h.high
  have hodd := h.odd
  generalize (2 : ℚ) ^ (q - 2) = unit at *
  refine ⟨?_, fun hhalf => ?_⟩
  · rw [hdistance, abs_le, le_div_iff₀ (by positivity), div_le_iff₀ (by positivity)]
    constructor <;> linarith
  · by_contra heven
    obtain ⟨hbelow, habove⟩ := hodd (by omega)
    rw [hdistance] at hhalf
    refine absurd hhalf (ne_of_lt ?_)
    rw [abs_lt, lt_div_iff₀ (by positivity), div_lt_iff₀ (by positivity)]
    constructor <;> linarith

/-- Below `2 ^ 52 · 2 ^ q` only the numbers close to it are rounded up, to `2 ^ 53` half units. -/
theorem RoundsTo.nearestTo_half (h : RoundsTo v (2 ^ 52) q) (hq : -1074 < q) (hbelow : v < 2 ^ (52 + q)) :
    NearestTo (v / 2 ^ (q - 1)) (2 ^ 53) := by
  have hunit : (0 : ℚ) < 2 ^ (q - 2) := by positivity
  have hend : (lowEnd (2 ^ 52) q : ℚ) = 2 ^ 54 - 1 := by
    unfold lowEnd
    rw [if_pos ⟨rfl, hq⟩]
    norm_num
  have hlow := h.low
  rw [hend] at hlow
  rw [zpow_add₀ (by norm_num), two_zpow_sub_two q] at hbelow
  rw [two_zpow_sub_one]
  generalize (2 : ℚ) ^ (q - 2) = unit at *
  refine ⟨?_, fun _ => rfl⟩
  have hdistance : v / (2 * unit) - (2 ^ 53 : ℕ) = (v - 2 ^ 54 * unit) / (2 * unit) := by
    field_simp
    push_cast
    ring
  rw [hdistance, abs_le, le_div_iff₀ (by positivity), div_le_iff₀ (by positivity)]
  norm_num at *
  constructor <;> linarith

theorem RoundsTo.lt (h : RoundsTo v m q) (hm : m < 2 ^ 53) : v < 2 ^ (53 + q) := by
  have hunit : (0 : ℚ) < 2 ^ (q - 2) := by positivity
  have hle : (m : ℚ) + 1 ≤ 2 ^ 53 := by exact_mod_cast hm
  have hbound : (4 * m + 2 : ℚ) * 2 ^ (q - 2) < 2 ^ 53 * (4 * 2 ^ (q - 2)) := by
    rw [← mul_assoc]
    exact mul_lt_mul_of_pos_right (by linarith) hunit
  calc v ≤ (4 * m + 2) * 2 ^ (q - 2) := h.high
    _ < 2 ^ 53 * (4 * 2 ^ (q - 2)) := hbound
    _ = 2 ^ (53 + q) := by rw [zpow_add₀ (by norm_num), two_zpow_sub_two q]; norm_num

/-- A double of 53 digits takes numbers above half of its power of two, and above
    the power of two itself if it is not that. -/
theorem RoundsTo.gt (h : RoundsTo v m q) (hm : 2 ^ 52 ≤ m) : 2 ^ (51 + q) < v ∧ (m ≠ 2 ^ 52 → 2 ^ (52 + q) ≤ v) := by
  have hunit : (0 : ℚ) < 2 ^ (q - 2) := by positivity
  have hend := mul_le_mul_of_nonneg_right (le_lowEnd (by omega : 0 < m) q) hunit.le
  have hlow := h.low
  rw [zpow_add₀ (by norm_num), zpow_add₀ (by norm_num), two_zpow_sub_two q]
  constructor
  · have hle : (2 ^ 52 : ℚ) ≤ m := by exact_mod_cast hm
    have hscaled := mul_le_mul_of_nonneg_right hle hunit.le
    norm_num at *
    linarith
  · intro hne
    have hle : (2 ^ 52 + 1 : ℚ) ≤ m := by exact_mod_cast (by omega : 2 ^ 52 + 1 ≤ m)
    have hscaled := mul_le_mul_of_nonneg_right hle hunit.le
    norm_num at *
    linarith

/-! ### Rounding into the interval -/

theorem quotient_lt (num : ℕ) {den : ℕ} (hden : 0 < den) : (num / den : ℚ) < 2 ^ ((num / den).log2 + 1) := by
  rw [div_lt_iff₀ (by exact_mod_cast hden)]
  exact_mod_cast (Nat.div_lt_iff_lt_mul hden).mp Nat.lt_log2_self

theorem le_quotient {num den : ℕ} (hden : 0 < den) (h : num / den ≠ 0) : (2 : ℚ) ^ (num / den).log2 ≤ num / den := by
  rw [le_div_iff₀ (by exact_mod_cast hden)]
  exact_mod_cast (Nat.le_div_iff_mul_le hden).mp (Nat.log2_self_le h)

theorem targetExponent_eq (n : ℕ) (e : ℤ) :
    Format.binary64.targetExponent (totalExponent n e) = max (n.log2 + e - 52) (-1074) := by
  simp only [Format.targetExponent, totalExponent, Format.mantissaBits, Format.minExponent]
  norm_num
  omega

/-- There are enough digits to round from, or the exponent is small enough that fewer do. -/
def HasDigits (n : ℕ) (e : ℤ) : Prop := 52 ≤ n.log2 ∨ e ≤ -1074

theorem scaled_quotient_lt (num : ℕ) {den : ℕ} (hden : 0 < den) (e : ℤ) :
    (num / den * 2 ^ e : ℚ) < 2 ^ ((num / den).log2 + 1 + e) := by
  have hscale : (0 : ℚ) < 2 ^ e := by positivity
  have hquotient := mul_lt_mul_of_pos_right (quotient_lt num hden) hscale
  rw [zpow_add₀ (by norm_num)]
  exact_mod_cast hquotient

theorem RoundsTo.log2_lt {num den : ℕ} {e : ℤ} (h : RoundsTo (num / den * 2 ^ e) m q) (hm : m < 2 ^ 53)
    (hden : 0 < den) (hne : num / den ≠ 0) : (num / den).log2 + e < 53 + q := by
  have hscale : (0 : ℚ) < 2 ^ e := by positivity
  have hquotient := mul_le_mul_of_nonneg_right (le_quotient hden hne) hscale.le
  rw [← zpow_natCast, ← zpow_add₀ (by norm_num)] at hquotient
  exact (zpow_lt_zpow_iff_right₀ (by norm_num)).mp (hquotient.trans_lt (h.lt hm))

/-- The digits are cut off at the exponent of the double, or one bit behind it
    if the number lies below the power of two that it is rounded to. -/
theorem RoundsTo.exponent {num den : ℕ} {e : ℤ} (h : RoundsTo (num / den * 2 ^ e) m q) (hcanonical : Canonical m q)
    (hden : 0 < den) (hdigits : HasDigits (num / den) e) :
    max ((num / den).log2 + e - 52) (-1074) = q ∨
      max ((num / den).log2 + e - 52) (-1074) = q - 1 ∧ m = 2 ^ 52 ∧ -1074 < q ∧
        num / den * 2 ^ e < (2 : ℚ) ^ (52 + q) := by
  obtain ⟨hpos, hlt, hlow, hhigh, hnormal⟩ := hcanonical
  have habove := scaled_quotient_lt num hden e
  have hbelow := h.log2_lt hlt hden
  have hzero : num / den = 0 → (num / den).log2 = 0 := fun hzero => by rw [hzero]; rfl
  unfold HasDigits at hdigits
  by_cases hleast : q = -1074
  · left
    by_cases hne : num / den = 0
    · have := hzero hne
      omega
    · have := hbelow hne
      omega
  · have hbig : 2 ^ 52 ≤ m := hnormal.resolve_right hleast
    have hnear : 51 + q < (num / den).log2 + 1 + e :=
      (zpow_lt_zpow_iff_right₀ (by norm_num : (1 : ℚ) < 2)).mp ((h.gt hbig).1.trans habove)
    have hne : num / den ≠ 0 := fun hne => by
      have := hzero hne
      omega
    have := hbelow hne
    by_cases hexponent : max ((num / den).log2 + e - 52) (-1074) = q
    · exact .inl hexponent
    · have hlower : (num / den).log2 + 1 + e ≤ 52 + q := by omega
      have hsmall : (num / den * 2 ^ e : ℚ) < 2 ^ (52 + q) :=
        habove.trans_le (zpow_le_zpow_right₀ (by norm_num) hlower)
      refine .inr ⟨by omega, ?_, by omega, hsmall⟩
      by_contra hother
      exact absurd ((h.gt hbig).2 hother) (not_le.mpr hsmall)

theorem shiftToTargetExponent_quotient {num den : ℕ} {e t : ℤ} {accuracy : Accuracy} (hden : 0 < den)
    (ht : max ((num / den).log2 + e - 52) (-1074) = t) (hdigits : HasDigits (num / den) e)
    (haccuracy : ExtendedMantissa.ofMantissaAndAccuracy (num / den) accuracy = quotientDigits num den) :
    shiftToTargetExponent .binary64 (num / den) e accuracy = (quotientDigits num (2 ^ (t - e).toNat * den), t) := by
  unfold HasDigits at hdigits
  simp only [shiftToTargetExponent, shiftToExponent, targetExponent_eq, ht, haccuracy,
    shiftRight_quotientDigits num hden]
  congr 1
  omega

/-- Digits that fit stay as they are. -/
theorem shiftToTargetExponent_canonical (h : Canonical m q) :
    shiftToTargetExponent .binary64 m q .exact = (⟨m, false, false⟩, q) := by
  have hlog : m.log2 < 53 := (Nat.log2_lt h.pos.ne').mpr h.lt
  have hamount : (max (m.log2 + q - 52) (-1074) - q).toNat = 0 := by
    have := h.low
    omega
  simp only [shiftToTargetExponent, shiftToExponent, targetExponent_eq, hamount]
  simp [ExtendedMantissa.ofMantissaAndAccuracy, HShiftRight.hShiftRight, Nat.repeat]

/-- Digits that were rounded up to a power of two lose a zero. -/
theorem shiftToTargetExponent_carry (hq : -1074 < q) :
    shiftToTargetExponent .binary64 (2 ^ 53) (q - 1) .exact = (⟨2 ^ 52, false, false⟩, q) := by
  have hlog : (2 ^ 53 : ℕ).log2 = 53 := Nat.log2_two_pow
  have hamount : (max (((2 ^ 53 : ℕ).log2 : ℤ) + (q - 1) - 52) (-1074) - (q - 1)).toNat = 1 := by
    rw [hlog]
    omega
  simp only [shiftToTargetExponent, shiftToExponent, targetExponent_eq, hamount]
  simp [ExtendedMantissa.ofMantissaAndAccuracy, HShiftRight.hShiftRight, Nat.repeat, ExtendedMantissa.shiftRightOne]

/-- **Rounding.**  Enough digits of a quotient are rounded to the double in whose
    interval the quotient lies. -/
theorem roundWithAccuracy_eq (sign : Sign) {num den : ℕ} {e : ℤ} {accuracy : Accuracy}
    (h : RoundsTo (num / den * 2 ^ e) m q) (hcanonical : Canonical m q) (hden : 0 < den)
    (hdigits : HasDigits (num / den) e)
    (haccuracy : ExtendedMantissa.ofMantissaAndAccuracy (num / den) accuracy = quotientDigits num den) :
    roundWithAccuracy .binary64 sign (num / den) e accuracy = .finite sign m q hcanonical.pos := by
  obtain ⟨t, ht⟩ : ∃ t, max ((num / den).log2 + e - 52) (-1074) = t := ⟨_, rfl⟩
  have hscaled : (num / (2 ^ (t - e).toNat * den : ℕ) : ℚ) = num / den * 2 ^ e / 2 ^ t := by
    have hle : e ≤ t := by
      unfold HasDigits at hdigits
      omega
    have hsplit : (2 : ℚ) ^ t = 2 ^ e * 2 ^ (t - e).toNat := by
      rw [← zpow_natCast, ← zpow_add₀ (by norm_num)]
      congr 1
      omega
    have hpos : (den : ℚ) ≠ 0 := by exact_mod_cast hden.ne'
    rw [hsplit]
    push_cast
    field_simp
  have hden' : 0 < 2 ^ (t - e).toNat * den := by positivity
  have hnearest := h.exponent hcanonical hden hdigits
  rw [ht] at hnearest
  unfold roundWithAccuracy
  rw [shiftToTargetExponent_quotient hden ht hdigits haccuracy]
  simp only
  rcases hnearest with rfl | ⟨rfl, rfl, hq, hbelow⟩
  · rw [roundedMantissa_quotientDigits hden' (hscaled ▸ h.nearestTo hcanonical.pos),
      shiftToTargetExponent_canonical hcanonical]
    exact dif_neg hcanonical.pos.ne'
  · rw [roundedMantissa_quotientDigits hden' (hscaled ▸ h.nearestTo_half hq hbelow), shiftToTargetExponent_carry hq]
    exact dif_neg hcanonical.pos.ne'

/-! ### Products and quotients -/

section Operations

variable {m₁ m₂ : ℕ} {e₁ e₂ : ℤ}

theorem mul_eq (sign₁ sign₂ : Sign) (hpos₁ : 0 < m₁) (hpos₂ : 0 < m₂)
    (h : RoundsTo (m₁ * 2 ^ e₁ * (m₂ * 2 ^ e₂)) m q) (hcanonical : Canonical m q) (hdigits : 2 ^ 52 ≤ m₁ * m₂) :
    UnpackedFloat.mul .binary64 (.finite sign₁ m₁ e₁ hpos₁) (.finite sign₂ m₂ e₂ hpos₂) =
      .finite (sign₁ * sign₂) m q hcanonical.pos := by
  have hvalue : (m₁ * 2 ^ e₁ * (m₂ * 2 ^ e₂) : ℚ) = ((m₁ * m₂ : ℕ) : ℚ) / (1 : ℕ) * 2 ^ (e₁ + e₂) := by
    rw [zpow_add₀ (by norm_num)]
    push_cast
    ring
  have hlog : 52 ≤ (m₁ * m₂ / 1).log2 := by
    rw [Nat.div_one]
    exact (Nat.le_log2 (by positivity)).mpr hdigits
  have hrounded := roundWithAccuracy_eq (sign₁ * sign₂) (hvalue ▸ h) hcanonical Nat.one_pos (.inl hlog)
    (ofMantissaAndAccuracy_exact _)
  rwa [Nat.div_one] at hrounded

theorem two_pow_le_quotient (shift : ℕ) (hpos₁ : 0 < m₁) (hpos₂ : 0 < m₂) (h : 53 + m₂.log2 ≤ m₁.log2 + shift) :
    2 ^ 52 ≤ m₁ * 2 ^ shift / m₂ := by
  rw [Nat.le_div_iff_mul_le hpos₂]
  calc 2 ^ 52 * m₂ ≤ 2 ^ 52 * 2 ^ (m₂.log2 + 1) := Nat.mul_le_mul_left _ Nat.lt_log2_self.le
    _ = 2 ^ (53 + m₂.log2) := by ring
    _ ≤ 2 ^ (m₁.log2 + shift) := Nat.pow_le_pow_right Nat.two_pos h
    _ = 2 ^ m₁.log2 * 2 ^ shift := Nat.pow_add ..
    _ ≤ m₁ * 2 ^ shift := Nat.mul_le_mul_right _ (Nat.log2_self_le hpos₁.ne')

theorem div_eq (sign₁ sign₂ : Sign) (hpos₁ : 0 < m₁) (hpos₂ : 0 < m₂)
    (h : RoundsTo (m₁ * 2 ^ e₁ / (m₂ * 2 ^ e₂)) m q) (hcanonical : Canonical m q) :
    UnpackedFloat.div .binary64 (.finite sign₁ m₁ e₁ hpos₁) (.finite sign₂ m₂ e₂ hpos₂) =
      .finite (sign₁ / sign₂) m q hcanonical.pos := by
  obtain ⟨target, htarget⟩ : ∃ target, min (e₁ - e₂)
      (Format.binary64.targetExponent (totalExponent m₁ e₁ - totalExponent m₂ e₂)) = target := ⟨_, rfl⟩
  obtain ⟨shift, hshift⟩ : ∃ shift, (e₁ - e₂ - target).toNat = shift := ⟨_, rfl⟩
  have hsum : e₁ - e₂ = shift + target := by omega
  have hvalue : (m₁ * 2 ^ e₁ / (m₂ * 2 ^ e₂) : ℚ) = ((m₁ * 2 ^ shift : ℕ) : ℚ) / m₂ * 2 ^ target := by
    have hscale : (2 : ℚ) ^ e₁ = 2 ^ e₂ * (2 ^ shift * 2 ^ target) := by
      rw [← zpow_natCast, ← zpow_add₀ (by norm_num), ← zpow_add₀ (by norm_num), ← hsum]
      congr 1
      ring
    have hne : (m₂ : ℚ) ≠ 0 := by exact_mod_cast hpos₂.ne'
    rw [hscale]
    push_cast
    field_simp
  have hdigits : HasDigits (m₁ * 2 ^ shift / m₂) target := by
    by_cases hsmall : target ≤ -1074
    · exact .inr hsmall
    · left
      simp only [Format.targetExponent, totalExponent, Format.mantissaBits, Format.minExponent] at htarget
      norm_num at htarget
      have hle := two_pow_le_quotient shift hpos₁ hpos₂ (by omega)
      exact (Nat.le_log2 (by omega)).mpr hle
  have hrounded := roundWithAccuracy_eq (sign₁ / sign₂) (hvalue ▸ h) hcanonical hpos₂ hdigits
    (ofMantissaAndAccuracy_fraction _ hpos₂)
  simp only [UnpackedFloat.div, divCore, htarget, hshift, Nat.shiftLeft_eq]
  exact hrounded

end Operations

end NumberedMelody.Binary64
