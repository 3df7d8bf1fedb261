/-
  NumberedMelody/Proofs/Binary64/WholeNumbers.lean
  ================================================
  **Doubles that are whole numbers.**  A double holds 53 binary digits, so whole
  numbers below `2 ^ 53` are doubles, and their sums and products are exact as
  long as they stay below.  A double stands for a whole number (`IsWhole`) if it
  is that number, scaled up to 53 digits and down again; zero has two signs.
  What is whole is closed under the operations that notes are computed with, and
  its whole parts are the number itself, brought into 32 bits.
-/
import Mathlib
import NumberedMelody.Binary64
import NumberedMelody.Quantity

namespace NumberedMelody.Binary64

open Float.Model (UnpackedFloat Format totalExponent)
open Float.Model.UnpackedFloat (Sign Accuracy ExtendedMantissa shiftToExponent shiftToTargetExponent
  roundWithAccuracy decreaseExponent)

/-! ### Rounding nothing away -/

/-- An unpacked double is a whole number; its 53 digits are those of the number
    and zeros behind them. -/
inductive Represents : UnpackedFloat → Int → Prop
  | zero (sign : Sign) : Represents (.zero sign) 0
  | finite (sign : Sign) (k zeros : Nat) (hpos : 0 < k * 2 ^ zeros) (hlow : 2 ^ 52 ≤ k * 2 ^ zeros)
      (hhigh : k * 2 ^ zeros < 2 ^ 53) :
      Represents (.finite sign (k * 2 ^ zeros) (-(zeros : Int)) hpos) (sign.apply k)

theorem shiftRight_mul_two_pow (m zeros : Nat) :
    (⟨m * 2 ^ zeros, false, false⟩ : ExtendedMantissa) >>> zeros = ⟨m, false, false⟩ := by
  induction zeros generalizing m with
  | zero => simp [HShiftRight.hShiftRight, Nat.repeat]
  | succ zeros ih =>
    have hassoc : m * 2 ^ (zeros + 1) = m * 2 * 2 ^ zeros := by ring
    change ((⟨m * 2 ^ (zeros + 1), false, false⟩ : ExtendedMantissa) >>> zeros).shiftRightOne = _
    rw [hassoc, ih]
    simp [ExtendedMantissa.shiftRightOne]

theorem log2_mul_two_pow {k : Nat} (hk : k ≠ 0) (zeros : Nat) : (k * 2 ^ zeros).log2 = k.log2 + zeros := by
  rw [Nat.log2_eq_iff (by positivity)]
  have hlow := Nat.log2_self_le hk
  have hhigh := Nat.lt_log2_self (n := k)
  constructor
  · rw [Nat.pow_add]
    exact Nat.mul_le_mul_right _ hlow
  · rw [Nat.add_right_comm, Nat.pow_add]
    exact Nat.mul_lt_mul_of_pos_right hhigh (by positivity)

/-- The exponent that the digits of a whole number are scaled by. -/
theorem targetExponent_whole {k : Nat} (hk : k ≠ 0) (hbound : k < 2 ^ 53) (zeros : Nat) :
    Format.binary64.targetExponent (totalExponent (k * 2 ^ zeros) (-(zeros : Int))) = k.log2 - 52 := by
  have hlog : k.log2 < 53 := (Nat.log2_lt hk).mpr hbound
  simp only [Format.targetExponent, totalExponent, log2_mul_two_pow hk, Format.mantissaBits, Format.minExponent]
  norm_num
  omega

/-- Shifting down to 53 digits drops zeros only. -/
theorem shiftToTargetExponent_whole {k : Nat} (hk : k ≠ 0) (hbound : k < 2 ^ 53) {kept : Nat}
    (hkept : k.log2 + kept = 52) (dropped : Nat) :
    shiftToTargetExponent .binary64 (k * 2 ^ (kept + dropped)) (-((kept + dropped : Nat) : Int)) .exact =
      (⟨k * 2 ^ kept, false, false⟩, -(kept : Int)) := by
  have hamount : (((k.log2 : Int) - 52) - -((kept + dropped : Nat) : Int)).toNat = dropped := by omega
  simp only [shiftToTargetExponent, targetExponent_whole hk hbound, shiftToExponent, hamount,
    ExtendedMantissa.ofMantissaAndAccuracy]
  rw [Nat.pow_add, ← Nat.mul_assoc, shiftRight_mul_two_pow]
  congr 1
  omega

theorem represents_roundWithAccuracy (sign : Sign) {k zeros : Nat} (hk : k ≠ 0) (hbound : k < 2 ^ 53)
    (hlow : 2 ^ 52 ≤ k * 2 ^ zeros) :
    Represents (roundWithAccuracy .binary64 sign (k * 2 ^ zeros) (-(zeros : Int)) .exact) (sign.apply k) := by
  have hlog : k.log2 < 53 := (Nat.log2_lt hk).mpr hbound
  have hzeros : 52 ≤ k.log2 + zeros := by
    rw [← log2_mul_two_pow hk]
    exact (Nat.le_log2 (by positivity)).mpr hlow
  obtain ⟨kept, hkept⟩ : ∃ kept, k.log2 + kept = 52 := ⟨52 - k.log2, by omega⟩
  obtain ⟨dropped, rfl⟩ : ∃ dropped, zeros = kept + dropped := ⟨zeros - kept, by omega⟩
  have hpos : 0 < k * 2 ^ kept := by positivity
  have hrounded : roundWithAccuracy .binary64 sign (k * 2 ^ (kept + dropped)) (-((kept + dropped : Nat) : Int)) .exact =
      .finite sign (k * 2 ^ kept) (-(kept : Int)) hpos := by
    have hagain := shiftToTargetExponent_whole hk hbound hkept 0
    rw [Nat.add_zero] at hagain
    unfold roundWithAccuracy
    rw [shiftToTargetExponent_whole hk hbound hkept dropped]
    simp only [ExtendedMantissa.roundedMantissa, ExtendedMantissa.accuracy, Accuracy.roundToNearestEven, hagain]
    rw [dif_neg hpos.ne']
  have hdigits : (k * 2 ^ kept).log2 = 52 := by rw [log2_mul_two_pow hk, hkept]
  obtain ⟨hlower, hupper⟩ := (Nat.log2_eq_iff hpos.ne').mp hdigits
  rw [hrounded]
  exact .finite sign k kept hpos hlower hupper

theorem represents_round (sign : Sign) {k : Nat} (hk : k ≠ 0) (hbound : k < 2 ^ 53) (zeros : Nat) :
    Represents (UnpackedFloat.round .binary64 sign (k * 2 ^ zeros) (-(zeros : Int))) (sign.apply k) := by
  have hlog : k.log2 < 53 := (Nat.log2_lt hk).mpr hbound
  obtain ⟨more, hmore⟩ : ∃ more, more = (-(zeros : Int) - (k.log2 - 52)).toNat := ⟨_, rfl⟩
  have hdecreased : decreaseExponent (k * 2 ^ zeros) (-(zeros : Int)) (k.log2 - 52) =
      (k * 2 ^ (zeros + more), -((zeros + more : Nat) : Int)) := by
    simp only [decreaseExponent, ← hmore, Nat.shiftLeft_eq, Nat.pow_add, Nat.mul_assoc]
    congr 1
    push_cast
    ring
  unfold UnpackedFloat.round
  simp only [targetExponent_whole hk hbound, hdecreased]
  refine represents_roundWithAccuracy sign hk hbound ?_
  refine (Nat.le_log2 (by positivity)).mp ?_
  rw [log2_mul_two_pow hk]
  omega

theorem normalize_apply (sign : Sign) {m : Nat} (hm : 0 < m) (exponent : Int) (zeroSign : Sign) :
    UnpackedFloat.normalize .binary64 (sign.apply m) exponent zeroSign =
      UnpackedFloat.round .binary64 sign m exponent := by
  unfold UnpackedFloat.normalize
  cases sign with
  | negative =>
    have hcompare : compare (Sign.negative.apply m) 0 = .lt := compare_lt_iff_lt.mpr (by simp [Sign.apply, hm])
    rw [hcompare]
    simp [Sign.apply]
  | positive =>
    have hcompare : compare (Sign.positive.apply m) 0 = .gt := compare_gt_iff_gt.mpr (by simp [Sign.apply, hm])
    rw [hcompare]
    simp [Sign.apply]

theorem exists_sign_apply (n : Int) : ∃ sign : Sign, n = sign.apply n.natAbs := by
  rcases Int.le_total 0 n with hn | hn
  · exact ⟨.positive, by simp only [Sign.apply]; omega⟩
  · exact ⟨.negative, by simp only [Sign.apply]; omega⟩

@[simp] theorem natAbs_apply (sign : Sign) (n : Int) : (sign.apply n).natAbs = n.natAbs := by
  cases sign <;> simp [Sign.apply]

theorem apply_neg (sign : Sign) (n : Int) : (-sign).apply n = -sign.apply n := by
  cases sign
  · exact (Int.neg_neg n).symm
  · rfl

theorem apply_mul (sign : Sign) (a b : Int) : sign.apply (a * b) = sign.apply a * b := by
  cases sign <;> simp [Sign.apply]

theorem represents_normalize {n : Int} (hbound : n.natAbs < 2 ^ 53) (zeros : Nat) :
    Represents (UnpackedFloat.normalize .binary64 (n * 2 ^ zeros) (-(zeros : Int)) .positive) n := by
  by_cases hn : n = 0
  · subst hn
    have hcompare : compare ((0 : Int) * 2 ^ zeros) 0 = .eq := compare_eq_iff_eq.mpr (Int.zero_mul _)
    unfold UnpackedFloat.normalize
    rw [hcompare]
    exact .zero .positive
  · obtain ⟨sign, hsign⟩ := exists_sign_apply n
    have hdigits : n * 2 ^ zeros = sign.apply ((n.natAbs * 2 ^ zeros : Nat) : Int) := by
      rw [Nat.cast_mul, apply_mul, ← hsign, Nat.cast_pow, Nat.cast_ofNat]
    rw [hdigits, normalize_apply sign (by positivity)]
    conv => rhs; rw [hsign]
    exact represents_round sign (by omega) hbound zeros

/-! ### Sums and products -/

theorem decreaseExponent_mul_two_pow (k zeros more : Nat) :
    (decreaseExponent (k * 2 ^ zeros) (-(zeros : Int)) (-((zeros + more : Nat) : Int))).1 = k * 2 ^ (zeros + more) := by
  have hamount : (-(zeros : Int) - -((zeros + more : Nat) : Int)).toNat = more := by omega
  simp only [decreaseExponent, hamount, Nat.shiftLeft_eq, Nat.pow_add, Nat.mul_assoc]

theorem Represents.add {x y : UnpackedFloat} {m n : Int} (hx : Represents x m) (hy : Represents y n)
    (hbound : (m + n).natAbs < 2 ^ 53) : Represents (UnpackedFloat.add .binary64 x y) (m + n) := by
  cases hx with
  | zero sign =>
    cases hy with
    | zero sign' => cases sign <;> cases sign' <;> exact .zero _
    | finite sign' k zeros hpos hlow hhigh =>
      rw [Int.zero_add]
      exact .finite sign' k zeros hpos hlow hhigh
  | finite sign k zeros hpos hlow hhigh =>
    cases hy with
    | zero sign' =>
      rw [Int.add_zero]
      exact .finite sign k zeros hpos hlow hhigh
    | finite sign' k' zeros' hpos' hlow' hhigh' =>
      -- both are scaled to as many zeros as the one with more of them has
      obtain ⟨all, hall⟩ : ∃ all, all = max zeros zeros' := ⟨_, rfl⟩
      obtain ⟨more, hmore⟩ : ∃ more, all = zeros + more := ⟨all - zeros, by omega⟩
      obtain ⟨more', hmore'⟩ : ∃ more, all = zeros' + more := ⟨all - zeros', by omega⟩
      have hexponent : min (-(zeros : Int)) (-(zeros' : Int)) = -(all : Int) := by omega
      have hdigits : sign.apply ((k * 2 ^ all : Nat) : Int) + sign'.apply ((k' * 2 ^ all : Nat) : Int) =
          (sign.apply k + sign'.apply k') * 2 ^ all := by
        rw [Nat.cast_mul, Nat.cast_mul, apply_mul, apply_mul, Nat.cast_pow, Nat.cast_ofNat, Int.add_mul]
      simp only [UnpackedFloat.add, hexponent]
      rw [hmore, decreaseExponent_mul_two_pow, ← hmore, hmore', decreaseExponent_mul_two_pow, ← hmore', hdigits]
      exact represents_normalize hbound all

theorem apply_mul_apply (sign sign' : Sign) (a b : Int) :
    sign.apply a * sign'.apply b = (sign * sign').apply (a * b) := by
  cases sign <;> cases sign'
  · exact Int.neg_mul_neg a b
  · exact Int.neg_mul a b
  · exact Int.mul_neg a b
  · rfl

theorem Represents.mul {x y : UnpackedFloat} {m n : Int} (hx : Represents x m) (hy : Represents y n)
    (hbound : (m * n).natAbs < 2 ^ 53) : Represents (UnpackedFloat.mul .binary64 x y) (m * n) := by
  cases hx with
  | zero sign =>
    rw [Int.zero_mul]
    cases hy <;> exact .zero _
  | finite sign k zeros hpos hlow hhigh =>
    cases hy with
    | zero sign' =>
      rw [Int.mul_zero]
      exact .zero _
    | finite sign' k' zeros' hpos' hlow' hhigh' =>
      have hdigits : k * 2 ^ zeros * (k' * 2 ^ zeros') = k * k' * 2 ^ (zeros + zeros') := by ring
      have hexponent : -(zeros : Int) + -(zeros' : Int) = -((zeros + zeros' : Nat) : Int) := by omega
      have hne : k * k' ≠ 0 := by
        intro hzero
        rw [hzero, Nat.zero_mul] at hdigits
        exact (Nat.mul_pos hpos hpos').ne' hdigits
      have hproduct : (sign * sign').apply ((k * k' : Nat) : Int) = sign.apply k * sign'.apply k' := by
        rw [apply_mul_apply, Nat.cast_mul]
      rw [← hproduct] at hbound ⊢
      rw [natAbs_apply, Int.natAbs_natCast] at hbound
      simp only [UnpackedFloat.mul, hdigits, hexponent]
      refine represents_roundWithAccuracy _ hne hbound ?_
      rw [← hdigits]
      exact hlow.trans (Nat.le_mul_of_pos_right _ hpos')

theorem Represents.neg {x : UnpackedFloat} {n : Int} (hx : Represents x n) : Represents x.neg (-n) := by
  cases hx with
  | zero sign => exact .zero _
  | finite sign k zeros hpos hlow hhigh =>
    rw [← apply_neg]
    exact .finite (-sign) k zeros hpos hlow hhigh

/-! ### Bits -/

/-- The leading digit, which is left out of the bits, put back. -/
theorem toNat_leading (fraction : BitVec 52) : (1#1 ++ fraction).toNat = fraction.toNat + 2 ^ 52 := by
  rw [BitVec.toNat_append, ← Nat.shiftLeft_add_eq_or_of_lt fraction.isLt]
  simp only [BitVec.toNat_ofNat, Nat.shiftLeft_eq]
  omega

theorem unpack_pack_zero (sign : Sign) : (Float.Model.pack (.zero sign)).unpack = .zero sign := by
  cases sign <;> rfl

/-- A double with 53 digits survives being packed. -/
theorem unpack_pack_finite (sign : Sign) {m : Nat} {exponent : Int} (hleast : -1074 ≤ exponent) (hmost : exponent ≤ 971)
    (hpos : 0 < m) (hlow : 2 ^ 52 ≤ m) (hhigh : m < 2 ^ 53) :
    (Float.Model.pack (.finite sign m exponent hpos)).unpack = .finite sign m exponent hpos := by
  have hlog : m.log2 = 52 := (Nat.log2_eq_iff hpos.ne').mpr ⟨hlow, hhigh⟩
  obtain ⟨field, hfield⟩ : ∃ field : Nat, exponent + 1075 = field := ⟨(exponent + 1075).toNat, by omega⟩
  have hbias : (exponent + (Format.binary64.exponentBias : Int) + (52 : Nat)).toNat = field := by
    simp only [Format.exponentBias]
    omega
  have hexponent : (BitVec.ofNat 11 field).toNat = field := by
    rw [BitVec.toNat_ofNat]
    omega
  have hmantissa : (1#1 ++ BitVec.ofNat 52 m).toNat = m := by
    rw [toNat_leading, BitVec.toNat_ofNat]
    omega
  have hneither : BitVec.ofNat 11 field ≠ -1#11 ∧ BitVec.ofNat 11 field ≠ 0#11 := by
    constructor <;> intro heq <;> rw [heq] at hexponent <;> simp at hexponent <;> omega
  have hpacked : UnpackedFloat.pack .binary64 (.finite sign m exponent hpos) =
      UnpackedFloat.packComponents .binary64 sign (BitVec.ofNat 11 field) (BitVec.ofNat 52 m) := by
    have hfits : ¬ 2 ^ 11 ≤ field + 1 := by omega
    simp only [UnpackedFloat.pack, hbias, if_neg hfits]
    rw [if_pos (by rw [hlog]; rfl)]
  unfold Float.Model.unpack Float.Model.pack
  simp only [hpacked, UnpackedFloat.unpack, UnpackedFloat.unpackSign_packComponents, Sign.ofBitVec_toBitVec,
    UnpackedFloat.unpackMantissa_packComponents, UnpackedFloat.unpackExponent_packComponents, hexponent,
    if_neg hneither.1, if_neg hneither.2, hmantissa]
  congr 1
  simp only [Format.exponentBias]
  omega

theorem Represents.unpack_pack {x : UnpackedFloat} {n : Int} (hx : Represents x n) :
    (Float.Model.pack x).unpack = x := by
  cases hx with
  | zero sign => exact unpack_pack_zero sign
  | finite sign k zeros hpos hlow hhigh =>
    have hpow : 2 ^ zeros < 2 ^ 53 := (Nat.le_mul_of_pos_left _ (Nat.pos_of_mul_pos_right hpos)).trans_lt hhigh
    have hzeros : zeros < 53 := (Nat.pow_lt_pow_iff_right (by decide)).mp hpow
    exact unpack_pack_finite sign (by omega) (by omega) hpos hlow hhigh

/-! ### What the bits stand for -/

section Bits

variable (bits : BitVec 64)

theorem toNat_unpackMantissa :
    (@UnpackedFloat.unpackMantissa .binary64 bits).toNat = bits.toNat % 2 ^ 52 := by
  simp [UnpackedFloat.unpackMantissa_def, BitVec.extractLsb'_toNat]

theorem toNat_unpackExponent :
    (@UnpackedFloat.unpackExponent .binary64 bits).toNat = bits.toNat / 2 ^ 52 % 2048 := by
  simp [UnpackedFloat.unpackExponent_def, BitVec.extractLsb'_toNat, Nat.shiftRight_eq_div_pow]

theorem toNat_unpackSign :
    (@UnpackedFloat.unpackSign .binary64 bits).toNat = bits.toNat / 2 ^ 63 := by
  have := bits.isLt
  simp [UnpackedFloat.unpackSign_def, BitVec.extractLsb'_toNat, Nat.shiftRight_eq_div_pow]
  omega

theorem unpackMantissa_eq_iff (fraction : BitVec 52) :
    @UnpackedFloat.unpackMantissa .binary64 bits = fraction ↔ bits.toNat % 2 ^ 52 = fraction.toNat := by
  rw [← BitVec.toNat_inj, toNat_unpackMantissa]

theorem unpackExponent_eq_iff (field : BitVec 11) :
    @UnpackedFloat.unpackExponent .binary64 bits = field ↔ bits.toNat / 2 ^ 52 % 2048 = field.toNat := by
  rw [← BitVec.toNat_inj, toNat_unpackExponent]

theorem ofBitVec_unpackSign :
    Sign.ofBitVec (@UnpackedFloat.unpackSign .binary64 bits) =
      if 2 ^ 63 ≤ bits.toNat then .negative else .positive := by
  have hlt := bits.isLt
  have hzero : @UnpackedFloat.unpackSign .binary64 bits = 0#1 ↔ ¬ 2 ^ 63 ≤ bits.toNat := by
    rw [← BitVec.toNat_inj, toNat_unpackSign]
    simp only [BitVec.toNat_zero]
    omega
  unfold Sign.ofBitVec
  by_cases hnegative : 2 ^ 63 ≤ bits.toNat
  · rw [if_pos hnegative, if_neg fun h => hzero.mp h hnegative]
  · rw [if_neg hnegative, if_pos (hzero.mpr hnegative)]

end Bits

def isMinus : Sign → Bool
  | .negative => true
  | .positive => false

/-- What an unpacked double stands for. -/
def decoded : UnpackedFloat → Value
  | .notANumber => .nan
  | .infinity sign => .infinite (isMinus sign)
  | .zero sign => .finite (isMinus sign) 0 (-1074)
  | .finite sign m exponent _ => .finite (isMinus sign) m exponent

theorem value_eq_decoded (x : Float) : value x = decoded x.toModel.unpack := by
  obtain ⟨bits, hbits⟩ : ∃ bits, bits = x.toModel.toBits.toBitVec := ⟨_, rfl⟩
  have htoNat : x.toBits.toNat = bits.toNat := by
    rw [hbits]
    rfl
  have hsign : isMinus (Sign.ofBitVec (@UnpackedFloat.unpackSign .binary64 bits)) =
      decide (2 ^ 63 ≤ bits.toNat) := by
    rw [ofBitVec_unpackSign]
    split
    · next h => exact (decide_eq_true h).symm
    · next h => exact (decide_eq_false h).symm
  have hmantissa : (1#1 ++ @UnpackedFloat.unpackMantissa .binary64 bits).toNat =
      bits.toNat % 2 ^ 52 + 2 ^ 52 :=
    (toNat_leading _).trans (congrArg (· + 2 ^ 52) (toNat_unpackMantissa bits))
  have hones : @UnpackedFloat.unpackExponent .binary64 bits = -1#11 ↔ bits.toNat / 2 ^ 52 % 2048 = 2047 :=
    unpackExponent_eq_iff bits _
  have hzeros : @UnpackedFloat.unpackExponent .binary64 bits = 0#11 ↔ bits.toNat / 2 ^ 52 % 2048 = 0 :=
    unpackExponent_eq_iff bits _
  have hfraction : @UnpackedFloat.unpackMantissa .binary64 bits = 0#52 ↔ bits.toNat % 2 ^ 52 = 0 :=
    unpackMantissa_eq_iff bits _
  unfold value Float.Model.unpack UnpackedFloat.unpack
  simp only [htoNat, ← hbits, Nat.pow_eq, hones, hzeros, hfraction]
  split
  · split
    · exact congrArg Value.infinite hsign.symm
    · rfl
  · split
    · next hsmall =>
      split
      · next hzero => simp only [decoded, hsign, hzero]
      · simp only [decoded, hsign, toNat_unpackMantissa, toNat_unpackExponent, hsmall]
        rfl
    · simp only [decoded, hsign, hmantissa, toNat_unpackExponent]
      rfl

/-! ### Whole doubles -/

/-- A double is a whole number of at most 53 binary digits. -/
def IsWhole (x : Float) (n : Int) : Prop := Represents x.toModel.unpack n

theorem isWhole_pack {u : UnpackedFloat} {n : Int} (h : Represents u n) : IsWhole (.ofModel (.pack u)) n := by
  have hunpacked := h.unpack_pack
  unfold IsWhole
  rwa [show (Float.ofModel (.pack u)).toModel.unpack = u from hunpacked]

theorem isWhole_one : IsWhole (Float.ofBits 0x3FF0000000000000) 1 := by
  have hbits : Float.ofBits 0x3FF0000000000000 =
      .ofModel (.pack (.finite .positive (1 * 2 ^ 52) (-52) (by decide))) := by
    decide +kernel
  rw [hbits]
  exact isWhole_pack (.finite .positive 1 52 (by decide) (by decide) (by decide))

/-- The total of nothing is a zero. -/
theorem isWhole_nothing : IsWhole Quantity.nothing 0 := by
  have hzero : (-0.0 : Float) = .ofModel (.pack (.zero .negative)) := by decide +kernel
  have hnothing : (Quantity.nothing : Float) = -0.0 := rfl
  rw [hnothing, hzero]
  exact isWhole_pack (.zero .negative)

namespace IsWhole

variable {x y : Float} {m n : Int}

theorem add (hx : IsWhole x m) (hy : IsWhole y n) (hbound : (m + n).natAbs < 2 ^ 53) : IsWhole (x + y) (m + n) :=
  isWhole_pack (Represents.add hx hy hbound)

theorem mul (hx : IsWhole x m) (hy : IsWhole y n) (hbound : (m * n).natAbs < 2 ^ 53) : IsWhole (x * y) (m * n) :=
  isWhole_pack (Represents.mul hx hy hbound)

theorem neg (hx : IsWhole x m) : IsWhole (-x) (-m) := isWhole_pack (Represents.neg hx)

theorem toFloat {k : Nat} (hbound : k < 2 ^ 53) : IsWhole k.toUInt64.toFloat k := by
  have hword : k.toUInt64.toNat = k := by
    simp only [Nat.toUInt64_eq, UInt64.toNat_ofNat']
    omega
  refine isWhole_pack (u := UnpackedFloat.ofNat .binary64 k.toUInt64.toNat) ?_
  rw [hword]
  have hdigits := represents_normalize (n := k) (by simpa using hbound) 0
  rwa [pow_zero, Int.mul_one] at hdigits

theorem ofNat {k : Nat} (hbound : k < 2 ^ 53) : IsWhole (Float.ofNat k) k := by
  have heq : Float.ofNat k = k.toUInt64.toFloat * Float.ofBits 0x3FF0000000000000 := by
    unfold Float.ofNat
    change Float.ofScientific k false 0 = _
    unfold Float.ofScientific
    rw [dif_pos ⟨hbound, by decide⟩]
    rfl
  rw [heq, ← Int.mul_one (k : Int)]
  exact (toFloat hbound).mul isWhole_one (by simpa using hbound)

theorem ofInt (hbound : n.natAbs < 2 ^ 53) : IsWhole (Float.ofInt n) n := by
  cases n with
  | ofNat k => exact ofNat hbound
  | negSucc k => exact (ofNat (k := k + 1) hbound).neg

theorem foldl_add {xs : List Float} {ns : List Int} (h : List.Forall₂ IsWhole xs ns) (hx : IsWhole x m)
    (hbound : m.natAbs + (ns.map Int.natAbs).sum < 2 ^ 53) : IsWhole (xs.foldl (· + ·) x) (m + ns.sum) := by
  induction h generalizing x m with
  | nil => simpa using hx
  | @cons step n steps others hstep _ ih =>
    rw [List.map_cons, List.sum_cons] at hbound
    rw [List.foldl_cons, List.sum_cons, ← Int.add_assoc]
    exact ih (hx.add hstep (by omega)) (by omega)

theorem sum {xs : List Float} {ns : List Int} (h : List.Forall₂ IsWhole xs ns)
    (hbound : (ns.map Int.natAbs).sum < 2 ^ 53) : IsWhole (Quantity.sum xs) ns.sum := by
  have hsum := foldl_add h isWhole_nothing (by simpa using hbound)
  rwa [Int.zero_add] at hsum

/-! ### Whole parts -/

theorem floorOf_eq (sign : Sign) (k zeros : Nat) :
    floorOf (isMinus sign) (k * 2 ^ zeros) (-(zeros : Int)) = sign.apply k := by
  have hsigned : (if isMinus sign then -((k * 2 ^ zeros : Nat) : Int) else ((k * 2 ^ zeros : Nat) : Int)) =
      sign.apply k * (2 ^ zeros : Nat) := by
    rw [← apply_mul, ← Nat.cast_mul]
    cases sign <;> rfl
  simp only [floorOf, hsigned, Nat.pow_eq]
  split
  · next h =>
    obtain rfl : zeros = 0 := by omega
    simp
  · rw [Int.neg_neg, Int.toNat_natCast]
    exact Int.mul_ediv_cancel _ (by positivity)

theorem roundOf_eq (sign : Sign) (k zeros : Nat) :
    roundOf (isMinus sign) (k * 2 ^ zeros) (-(zeros : Int)) = sign.apply k := by
  have hrounded : (2 * (k * 2 ^ zeros) + 2 ^ zeros) / (2 * 2 ^ zeros) = k := by
    have hsplit : 2 * (k * 2 ^ zeros) + 2 ^ zeros = 2 ^ zeros + 2 * 2 ^ zeros * k := by ring
    have hpow : 0 < 2 ^ zeros := by positivity
    rw [hsplit, Nat.add_mul_div_left _ _ (by omega), Nat.div_eq_of_lt (by omega), Nat.zero_add]
  have hmagnitude : (if 0 ≤ -(zeros : Int) then k * 2 ^ zeros * 2 ^ (-(zeros : Int)).toNat
      else (2 * (k * 2 ^ zeros) + 2 ^ zeros) / (2 * 2 ^ zeros)) = k := by
    split
    · next h =>
      obtain rfl : zeros = 0 := by omega
      simp
    · exact hrounded
  simp only [roundOf, Nat.pow_eq, Int.neg_neg, Int.toNat_natCast, hmagnitude]
  cases sign <;> rfl

/-- The bits of a whole double are the digits of its number. -/
theorem exists_value (hx : IsWhole x n) :
    ∃ (sign : Sign) (k zeros : Nat), value x = .finite (isMinus sign) (k * 2 ^ zeros) (-(zeros : Int)) ∧
      sign.apply k = n := by
  rw [value_eq_decoded]
  unfold IsWhole at hx
  generalize x.toModel.unpack = u at hx
  cases hx with
  | zero sign =>
    refine ⟨sign, 0, 1074, ?_, by cases sign <;> rfl⟩
    rw [Nat.zero_mul]
    rfl
  | finite sign k zeros hpos hlow hhigh => exact ⟨sign, k, zeros, rfl, rfl⟩

theorem unique (hx : IsWhole x m) (hx' : IsWhole x n) : m = n := by
  obtain ⟨sign, k, zeros, hvalue, rfl⟩ := hx.exists_value
  obtain ⟨sign', k', zeros', hvalue', rfl⟩ := hx'.exists_value
  obtain ⟨hminus, hdigits, hexponent⟩ := Value.finite.inj (hvalue.symm.trans hvalue')
  rw [← floorOf_eq sign k zeros, ← floorOf_eq sign' k' zeros', hminus, hdigits, hexponent]

theorem wholePart_eq {whole : Bool → Nat → Int → Int} (hx : IsWhole x n)
    (hwhole : ∀ (sign : Sign) (k zeros : Nat), whole (isMinus sign) (k * 2 ^ zeros) (-(zeros : Int)) = sign.apply k) :
    wholePart whole x = clamp32 n := by
  obtain ⟨sign, k, zeros, hvalue, rfl⟩ := hx.exists_value
  unfold wholePart
  rw [hvalue]
  exact congrArg clamp32 (hwhole sign k zeros)

theorem floor32_eq (hx : IsWhole x n) : floor32 x = clamp32 n := wholePart_eq hx floorOf_eq

theorem round32_eq (hx : IsWhole x n) : round32 x = clamp32 n := wholePart_eq hx roundOf_eq

end IsWhole

end NumberedMelody.Binary64
