/-
  NumberedMelody/Proofs/Binary64/Encoding.lean
  ============================================
  **A finite double is its sign, its significand and its exponent.**  The bits
  give them, they give the bits, and every significand and exponent that a
  double can have (`Canonical`) survives being packed into one.
-/
import Mathlib
import NumberedMelody.Proofs.Binary64.WholeNumbers

namespace NumberedMelody.Binary64

open Float.Model (UnpackedFloat Format)
open Float.Model.UnpackedFloat (Sign)

/-- Significand and exponent of a double: 53 digits, or fewer at the least exponent. -/
structure Canonical (m : Nat) (q : Int) : Prop where
  pos : 0 < m
  lt : m < 2 ^ 53
  low : -1074 ≤ q
  high : q ≤ 971
  normal : 2 ^ 52 ≤ m ∨ q = -1074

theorem unpack_pack_subnormal (sign : Sign) {m : Nat} (hpos : 0 < m) (hlt : m < 2 ^ 52) :
    (Float.Model.pack (.finite sign m (-1074) hpos)).unpack = .finite sign m (-1074) hpos := by
  have hlog : m.log2 < 52 := (Nat.log2_lt hpos.ne').mpr hlt
  have hmantissa : (BitVec.ofNat 52 m).toNat = m := by
    rw [BitVec.toNat_ofNat]
    omega
  have hsome : BitVec.ofNat 52 m ≠ 0#52 := by
    intro heq
    rw [heq] at hmantissa
    simp at hmantissa
    omega
  have hpacked : UnpackedFloat.pack .binary64 (.finite sign m (-1074) hpos) =
      UnpackedFloat.packComponents .binary64 sign 0#11 (BitVec.ofNat 52 m) := by
    have hbias : ((-1074 : Int) + (Format.binary64.exponentBias : Int) + (52 : Nat)).toNat = 1 := rfl
    simp only [UnpackedFloat.pack, hbias]
    rw [if_neg (by decide), if_neg (by simp only [Format.mantissaBits]; omega)]
  unfold Float.Model.unpack Float.Model.pack
  simp only [hpacked, UnpackedFloat.unpack, UnpackedFloat.unpackSign_packComponents, Sign.ofBitVec_toBitVec,
    UnpackedFloat.unpackMantissa_packComponents, UnpackedFloat.unpackExponent_packComponents, hmantissa]
  rw [if_neg (by decide), if_pos trivial, dif_neg hsome]
  rfl

variable {m : Nat} {q : Int} {x y : Float}

theorem Canonical.unpack_pack (h : Canonical m q) (sign : Sign) :
    (Float.Model.pack (.finite sign m q h.pos)).unpack = .finite sign m q h.pos := by
  by_cases hbig : 2 ^ 52 ≤ m
  · exact unpack_pack_finite sign h.low h.high h.pos hbig h.lt
  · obtain rfl := h.normal.resolve_left hbig
    exact unpack_pack_subnormal sign h.pos (by omega)

/-- The double with these digits. -/
theorem Canonical.value_pack (h : Canonical m q) (sign : Sign) :
    value (.ofModel (.pack (.finite sign m q h.pos))) = .finite (isMinus sign) m q := by
  rw [value_eq_decoded]
  exact congrArg decoded (h.unpack_pack sign)

theorem canonical_of_value {negative : Bool} (h : value x = .finite negative m q) (hpos : 0 < m) : Canonical m q := by
  have hbits := x.toBits.toNat_lt
  simp only [value, Nat.pow_eq] at h
  split_ifs at h with _ _ hfield
  · obtain ⟨-, rfl, rfl⟩ := Value.finite.inj h
    exact ⟨hpos, by omega, by omega, by omega, .inr rfl⟩
  · obtain ⟨-, rfl, rfl⟩ := Value.finite.inj h
    exact ⟨hpos, by omega, by omega, by omega, .inl (by omega)⟩

/-- A zero has the least exponent. -/
theorem exponent_of_value_zero {negative : Bool} (h : value x = .finite negative 0 q) : q = -1074 := by
  simp only [value, Nat.pow_eq] at h
  split_ifs at h
  · exact (Value.finite.inj h).2.2.symm
  · have := (Value.finite.inj h).2.1
    omega

/-- Doubles with the same digits are the same. -/
theorem eq_of_value_eq {negative : Bool} (hx : value x = .finite negative m q) (hy : value y = .finite negative m q) :
    x = y := by
  have hbits : x.toBits.toNat = y.toBits.toNat := by
    have hxlt := x.toBits.toNat_lt
    have hylt := y.toBits.toNat_lt
    simp only [value, Nat.pow_eq] at hx hy
    split_ifs at hx hy <;>
    · obtain ⟨hxsign, hxm, hxq⟩ := Value.finite.inj hx
      obtain ⟨hysign, hym, hyq⟩ := Value.finite.inj hy
      have hsign := decide_eq_decide.mp (hxsign.trans hysign.symm)
      omega
  obtain ⟨⟨bits, _⟩⟩ := x
  obtain ⟨⟨bits', _⟩⟩ := y
  obtain rfl : bits = bits' := UInt64.toNat_inj.mp hbits
  rfl

theorem unpack_of_value (sign : Sign) (h : value x = .finite (isMinus sign) m q) (hpos : 0 < m) :
    x.toModel.unpack = .finite sign m q hpos := by
  rw [value_eq_decoded] at h
  cases hunpacked : x.toModel.unpack with
  | notANumber | infinity _ =>
    rw [hunpacked] at h
    cases h
  | zero _ =>
    rw [hunpacked] at h
    obtain ⟨-, rfl, -⟩ := Value.finite.inj h
    exact absurd hpos (Nat.lt_irrefl 0)
  | finite sign' _ _ _ =>
    rw [hunpacked] at h
    obtain ⟨hsign, rfl, rfl⟩ := Value.finite.inj h
    obtain rfl : sign' = sign := by cases sign' <;> cases sign <;> first | rfl | cases hsign
    rfl

/-- The other sign, and the same digits. -/
theorem value_neg {negative : Bool} (h : value x = .finite negative m q) : value (-x) = .finite (!negative) m q := by
  change value (.ofModel (.pack x.toModel.unpack.neg)) = _
  have hdecoded := (value_eq_decoded x).symm.trans h
  cases hunpacked : x.toModel.unpack with
  | notANumber | infinity _ =>
    rw [hunpacked] at hdecoded
    cases hdecoded
  | zero sign =>
    rw [hunpacked] at hdecoded
    obtain ⟨rfl, rfl, rfl⟩ := Value.finite.inj hdecoded
    rw [value_eq_decoded]
    refine (congrArg decoded (unpack_pack_zero _)).trans ?_
    cases sign <;> rfl
  | finite sign _ _ hpos =>
    rw [hunpacked] at hdecoded
    obtain ⟨rfl, rfl, rfl⟩ := Value.finite.inj hdecoded
    refine ((canonical_of_value h hpos).value_pack (-sign)).trans ?_
    cases sign <;> rfl

theorem value_of_isFinite (h : x.isFinite = true) : ∃ negative m q, value x = .finite negative m q := by
  change x.toModel.unpack.isFinite = true at h
  rw [value_eq_decoded]
  cases hunpacked : x.toModel.unpack with
  | notANumber | infinity _ =>
    rw [hunpacked] at h
    cases h
  | zero sign | finite sign _ _ _ => exact ⟨_, _, _, rfl⟩

theorem isInf_of_value {negative : Bool} (h : value x = .finite negative m q) : x.isInf = false := by
  have hdecoded := (value_eq_decoded x).symm.trans h
  change x.toModel.unpack.isInf = false
  cases hunpacked : x.toModel.unpack with
  | notANumber | zero _ | finite _ _ _ _ => rfl
  | infinity _ =>
    rw [hunpacked] at hdecoded
    cases hdecoded

end NumberedMelody.Binary64
