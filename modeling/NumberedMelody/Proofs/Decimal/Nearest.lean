/-
  NumberedMelody/Proofs/Decimal/Nearest.lean
  ==========================================
  **Decimals are read as the nearest double.**  If `c · 10 ^ k` is among the
  numbers that are nearest to a double, then it is read as that double, whether
  it is small enough for doubles to multiply and divide exactly or not.
-/
import Mathlib
import NumberedMelody.Decimal.Numeral
import NumberedMelody.Proofs.Binary64.Rounding

namespace NumberedMelody.Decimal

open Binary64
open Float.Model (UnpackedFloat Format)
open Float.Model.UnpackedFloat (Sign)

variable {c m : ℕ} {q : ℤ}

/-! ### Small numbers and powers of ten as doubles -/

/-- A power of ten that is a double. -/
def IsPower (x : Float) (e : ℕ) : Prop :=
  match value x with
  | .finite false m q => 2 ^ 52 ≤ m ∧ m * 2 ^ q.toNat = 10 ^ e * 2 ^ (-q).toNat
  | _ => False

instance (x : Float) (e : ℕ) : Decidable (IsPower x e) := by
  unfold IsPower
  split <;> infer_instance

theorem isPower_table : ∀ e : Fin 23, IsPower (getElem Float.exactlyRepresentablePowersOfTen e.val e.isLt) e.val := by
  decide +kernel

theorem IsPower.exists_value {x : Float} {e : ℕ} (h : IsPower x e) :
    ∃ m q, value x = .finite false m q ∧ 2 ^ 52 ≤ m ∧ (m * 2 ^ q : ℚ) = 10 ^ e := by
  unfold IsPower at h
  split at h
  · next m q hvalue =>
    obtain ⟨hm, hequal⟩ := h
    refine ⟨m, q, hvalue, hm, ?_⟩
    have hcast : (m * 2 ^ q.toNat : ℚ) = 10 ^ e * 2 ^ (-q).toNat := by exact_mod_cast hequal
    have hsplit : (2 : ℚ) ^ q * 2 ^ (-q).toNat = 2 ^ q.toNat := by
      rw [← zpow_natCast, ← zpow_natCast, ← zpow_add₀ (by norm_num)]
      congr 1
      omega
    have hne : (2 : ℚ) ^ (-q).toNat ≠ 0 := by positivity
    apply mul_right_cancel₀ hne
    rw [mul_assoc, hsplit, hcast]
  · exact h.elim

theorem exists_value_toFloat {k : ℕ} (hpos : 0 < k) (hbound : k < 2 ^ 53) :
    ∃ m q, value k.toUInt64.toFloat = .finite false m q ∧ 2 ^ 52 ≤ m ∧ (m * 2 ^ q : ℚ) = k := by
  have hwhole := IsWhole.toFloat hbound
  rw [value_eq_decoded]
  unfold IsWhole at hwhole
  generalize k.toUInt64.toFloat.toModel.unpack = u at hwhole
  generalize hk : (k : ℤ) = n at hwhole
  cases hwhole with
  | zero sign => omega
  | finite sign k' zeros hpos' hlow hhigh =>
    cases sign with
    | negative =>
      simp only [Sign.apply] at hk
      omega
    | positive =>
      obtain rfl : k = k' := by simpa [Sign.apply] using hk
      refine ⟨_, _, rfl, hlow, ?_⟩
      push_cast
      rw [mul_assoc, zpow_neg, zpow_natCast, mul_inv_cancel₀ (by positivity), mul_one]

/-! ### Products and quotients as doubles -/

section Operations

variable {x y : Float} {m₁ m₂ : ℕ} {e₁ e₂ : ℤ}

theorem value_mul (hx : value x = .finite false m₁ e₁) (hy : value y = .finite false m₂ e₂) (hm₁ : 2 ^ 52 ≤ m₁)
    (hm₂ : 0 < m₂) (h : RoundsTo (m₁ * 2 ^ e₁ * (m₂ * 2 ^ e₂)) m q) (hcanonical : Canonical m q) :
    value (x * y) = .finite false m q := by
  have hproduct : UnpackedFloat.mul .binary64 x.toModel.unpack y.toModel.unpack =
      .finite .positive m q hcanonical.pos := by
    rw [unpack_of_value .positive hx (by omega), unpack_of_value .positive hy hm₂]
    exact mul_eq _ _ _ _ h hcanonical (hm₁.trans (Nat.le_mul_of_pos_right _ hm₂))
  change value (.ofModel (.pack (UnpackedFloat.mul .binary64 x.toModel.unpack y.toModel.unpack))) = _
  rw [hproduct]
  exact hcanonical.value_pack .positive

theorem value_div (hx : value x = .finite false m₁ e₁) (hy : value y = .finite false m₂ e₂) (hm₁ : 0 < m₁)
    (hm₂ : 0 < m₂) (h : RoundsTo (m₁ * 2 ^ e₁ / (m₂ * 2 ^ e₂)) m q) (hcanonical : Canonical m q) :
    value (x / y) = .finite false m q := by
  have hquotient : UnpackedFloat.div .binary64 x.toModel.unpack y.toModel.unpack =
      .finite .positive m q hcanonical.pos := by
    rw [unpack_of_value .positive hx hm₁, unpack_of_value .positive hy hm₂]
    exact div_eq _ _ _ _ h hcanonical
  change value (.ofModel (.pack (UnpackedFloat.div .binary64 x.toModel.unpack y.toModel.unpack))) = _
  rw [hquotient]
  exact hcanonical.value_pack .positive

end Operations

/-! ### Decimals -/

/-- Neither too large nor too small for the double to be computed. -/
def InReach (c : ℕ) (k : ℤ) : Prop := k ≤ 2048 ∧ -2048 - (c.log2 : ℤ) ≤ k

theorem value_ofScientific_model (hc : 0 < c) {k : ℤ} (hreach : InReach c k) (h : RoundsTo (c * 10 ^ k) m q)
    (hcanonical : Canonical m q) : value (.ofModel (Float.Model.ofScientific c k)) = .finite false m q := by
  obtain ⟨hmost, hleast⟩ := hreach
  have hmodel : UnpackedFloat.ofScientific .binary64 c k = .finite .positive m q hcanonical.pos := by
    unfold UnpackedFloat.ofScientific
    rw [dif_neg hc.ne', if_neg (by norm_num; omega), if_neg (by norm_num; omega)]
    split
    · next hpositive =>
      obtain ⟨e, rfl⟩ := Int.eq_ofNat_of_zero_le hpositive
      have hvalue : ((c <<< Format.binary64.mantissaBits : ℕ) * 2 ^ (-(Format.binary64.mantissaBits : ℤ)) *
          ((10 ^ (e : ℤ).toNat : ℕ) * 2 ^ (0 : ℤ)) : ℚ) = c * 10 ^ (e : ℤ) := by
        rw [Nat.shiftLeft_eq, Int.toNat_natCast, zpow_neg, zpow_natCast, zpow_natCast]
        push_cast
        field_simp
      have hdigits : 2 ^ 52 ≤ (c <<< Format.binary64.mantissaBits) * 10 ^ (e : ℤ).toNat := by
        rw [Nat.shiftLeft_eq]
        calc 2 ^ 52 ≤ 2 ^ Format.binary64.mantissaBits := by decide
          _ ≤ c * 2 ^ Format.binary64.mantissaBits := Nat.le_mul_of_pos_left _ hc
          _ ≤ _ := Nat.le_mul_of_pos_right _ (by positivity)
      rw [← hvalue] at h
      exact mul_eq _ _ _ _ h hcanonical hdigits
    · next hnegative =>
      obtain ⟨e, rfl⟩ : ∃ e : ℕ, k = -(e : ℤ) := ⟨k.natAbs, by omega⟩
      have hvalue : (c * 2 ^ (0 : ℤ) / ((10 ^ (-(-(e : ℤ))).toNat : ℕ) * 2 ^ (0 : ℤ)) : ℚ) = c * 10 ^ (-(e : ℤ)) := by
        rw [Int.neg_neg, Int.toNat_natCast, zpow_neg, zpow_natCast]
        push_cast
        simp [div_eq_mul_inv]
      exact div_eq _ _ _ _ (hvalue ▸ h) hcanonical
  change value (.ofModel (.pack (UnpackedFloat.ofScientific .binary64 c k))) = _
  rw [hmodel]
  exact hcanonical.value_pack .positive

/-- A decimal that doubles multiply or divide exactly, or else one that the model computes. -/
theorem value_ofScientific (hc : 0 < c) (negative : Bool) {e : ℕ} {k : ℤ} (hk : k = if negative then -(e : ℤ) else e)
    (hreach : InReach c k) (h : RoundsTo (c * 10 ^ k) m q) (hcanonical : Canonical m q) :
    value (Float.ofScientific c negative e) = .finite false m q := by
  unfold Float.ofScientific
  split
  · next hsmall =>
    obtain ⟨m₁, e₁, hvalue₁, hm₁, hnumber⟩ := exists_value_toFloat hc hsmall.1
    obtain ⟨m₂, e₂, hvalue₂, hm₂, hpower⟩ := (isPower_table ⟨e, by omega⟩).exists_value
    cases negative with
    | true =>
      refine value_div hvalue₁ hvalue₂ (by omega) (by omega) ?_ hcanonical
      rw [hnumber, hpower, div_eq_mul_inv, ← zpow_natCast, ← zpow_neg]
      exact hk ▸ h
    | false =>
      refine value_mul hvalue₁ hvalue₂ hm₁ (by omega) ?_ hcanonical
      rw [hnumber, hpower, ← zpow_natCast]
      exact hk ▸ h
  · have hexponent : (if negative then Int.negOfNat e else Int.ofNat e) = k := by
      rw [hk]
      cases negative
      · rfl
      · exact Int.negOfNat_eq
    simp only [hexponent]
    exact value_ofScientific_model hc hreach h hcanonical

/-- A whole number has so many digits. -/
theorem lt_pow_length_repr (c : ℕ) : c < 10 ^ (Nat.repr c).length :=
  (Nat.length_repr_le_iff Nat.length_repr_pos).mp (Nat.le_refl _)

theorem pow_length_repr_le (hc : 0 < c) : 10 ^ ((Nat.repr c).length - 1) ≤ c := by
  by_cases hone : (Nat.repr c).length = 1
  · rw [hone]
    exact hc
  · have hpos := Nat.length_repr_pos (n := c)
    by_contra hlt
    have := (Nat.length_repr_le_iff (by omega)).mpr (not_le.mp hlt)
    omega

/-- Ten is more than the third power of two. -/
theorem two_zpow_le_ten_zpow (n : ℕ) : (2 : ℚ) ^ (3 * n : ℤ) ≤ 10 ^ (n : ℤ) := by
  rw [zpow_mul, zpow_natCast, zpow_natCast]
  exact pow_le_pow_left₀ (by norm_num) (by norm_num) n

theorem ten_zpow_neg_le_two_zpow (n : ℕ) : (10 : ℚ) ^ (-(n : ℤ)) ≤ 2 ^ (-(3 * n : ℤ)) := by
  rw [zpow_neg, zpow_neg]
  exact inv_anti₀ (by positivity) (two_zpow_le_ten_zpow n)

/-- What is rounded to a double is neither too large nor too small to be read. -/
theorem leading_bounds (hc : 0 < c) {k : ℤ} (h : RoundsTo (c * 10 ^ k) m q) (hcanonical : Canonical m q) :
    -400 < (Nat.repr c).length + k ∧ (Nat.repr c).length + k < 400 := by
  have hscale : (0 : ℚ) < 10 ^ k := by positivity
  have hpos := Nat.length_repr_pos (n := c)
  have hleast := hcanonical.low
  have hmost := hcanonical.high
  constructor
  · have hdigits : (c * 10 ^ k : ℚ) < 10 ^ (((Nat.repr c).length : ℤ) + k) := by
      rw [zpow_add₀ (by norm_num)]
      exact mul_lt_mul_of_pos_right (by exact_mod_cast lt_pow_length_repr c) hscale
    have hlt : (10 : ℚ) ^ (-((400 : ℕ) : ℤ)) < 10 ^ (((Nat.repr c).length : ℤ) + k) :=
      calc (10 : ℚ) ^ (-((400 : ℕ) : ℤ)) ≤ 2 ^ (-(3 * (400 : ℕ) : ℤ)) := ten_zpow_neg_le_two_zpow _
        _ ≤ 2 ^ (q - 2) := zpow_le_zpow_right₀ (by norm_num) (by omega)
        _ ≤ lowEnd m q * 2 ^ (q - 2) := le_mul_of_one_le_left (by positivity) (one_le_lowEnd hcanonical.pos q)
        _ ≤ c * 10 ^ k := h.low
        _ < _ := hdigits
    have := (zpow_lt_zpow_iff_right₀ (by norm_num : (1 : ℚ) < 10)).mp hlt
    omega
  · have hdigits : (10 : ℚ) ^ (((Nat.repr c).length : ℤ) - 1 + k) ≤ c * 10 ^ k := by
      rw [zpow_add₀ (by norm_num)]
      refine mul_le_mul_of_nonneg_right ?_ hscale.le
      have hexponent : ((Nat.repr c).length : ℤ) - 1 = ((Nat.repr c).length - 1 : ℕ) := by omega
      rw [hexponent, zpow_natCast]
      exact_mod_cast pow_length_repr_le hc
    have hlt : (10 : ℚ) ^ (((Nat.repr c).length : ℤ) - 1 + k) < 10 ^ ((399 : ℕ) : ℤ) :=
      calc (10 : ℚ) ^ (((Nat.repr c).length : ℤ) - 1 + k) ≤ c * 10 ^ k := hdigits
        _ < 2 ^ (53 + q) := h.lt hcanonical.lt
        _ ≤ 2 ^ (3 * (399 : ℕ) : ℤ) := zpow_le_zpow_right₀ (by norm_num) (by omega)
        _ ≤ _ := two_zpow_le_ten_zpow _
    have := (zpow_lt_zpow_iff_right₀ (by norm_num : (1 : ℚ) < 10)).mp hlt
    omega

/-- **Reading.**  A decimal is read as the double in whose interval it lies. -/
theorem value_nearest (hc : 0 < c) {k : ℤ} (h : RoundsTo (c * 10 ^ k) m q) (hcanonical : Canonical m q) :
    value (nearest c k) = .finite false m q := by
  obtain ⟨hlow, hhigh⟩ := leading_bounds hc h hcanonical
  have hreach : InReach c k := by
    have hlength : (Nat.repr c).length - 1 ≤ c.log2 := by
      refine (Nat.le_log2 hc.ne').mpr (le_trans ?_ (pow_length_repr_le hc))
      exact Nat.pow_le_pow_left (by decide) _
    unfold InReach
    omega
  unfold nearest
  rw [if_neg hc.ne', if_neg (by omega), if_neg (by omega)]
  split
  · next hpositive =>
    refine value_ofScientific hc false ?_ hreach h hcanonical
    simp [hpositive]
  · next hnegative =>
    refine value_ofScientific hc true ?_ hreach h hcanonical
    simp only [if_true]
    omega

end NumberedMelody.Decimal
