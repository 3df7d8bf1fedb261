/-
  NumberedMelody/Proofs/Evaluation/Degrees.lean
  =============================================
  **Arithmetic on degrees.**  Quotients and remainders are put together from
  Euclidean ones, with a correction for negative divisors, and every step is
  checked against 32 bits.  What comes out is the exact result with floors, and
  a result is missing where the exact one does not fit.  One result that fits is
  missing as well: the lowest degree has no remainder by minus one, because the
  quotient that is taken along with it does not fit (`Arithmetic.apply_exact`).
-/
import Mathlib.Data.Rat.Floor
import Mathlib.Tactic.Ring
import NumberedMelody.Grammar.Item
import NumberedMelody.Proofs.Evaluation.Invariant

namespace NumberedMelody

@[simp] theorem fits32_iff {n : Int} : fits32 n = true ↔ -2147483648 ≤ n ∧ n ≤ 2147483647 := by simp [fits32]

theorem checked32_eq_some_iff {n result : Int} : checked32 n = some result ↔ fits32 result = true ∧ result = n := by
  unfold checked32
  constructor
  · intro h
    obtain ⟨hfits, hn⟩ := Option.ite_none_right_eq_some.mp h
    obtain rfl := Option.some.inj hn
    exact ⟨hfits, rfl⟩
  · rintro ⟨hfits, rfl⟩
    exact if_pos hfits

theorem divided32_map_eq_some_iff {a b result : Int} {f : Int × Int → Int} :
    (divided32 a b).map f = some result ↔ fits32 (a / b) = true ∧ result = f (a / b, a % b) := by
  unfold divided32
  rw [Option.map_map, Option.map_eq_some_iff]
  constructor
  · rintro ⟨quotient, hquotient, rfl⟩
    obtain ⟨hfits, rfl⟩ := checked32_eq_some_iff.mp hquotient
    exact ⟨hfits, rfl⟩
  · rintro ⟨hfits, rfl⟩
    exact ⟨a / b, checked32_eq_some_iff.mpr ⟨hfits, rfl⟩, rfl⟩

/-! ### Floors from Euclidean division -/

/-- Whether the floor lies below the Euclidean quotient. -/
def FallsBelow (a b : Int) : Prop := b < 0 ∧ a % b ≠ 0

instance (a b : Int) : Decidable (FallsBelow a b) := inferInstanceAs (Decidable (b < 0 ∧ a % b ≠ 0))

theorem floor_emod_div (a : Int) {b : Int} (hb : b ≠ 0) :
    ⌊((a % b : Int) : ℚ) / b⌋ = if FallsBelow a b then -1 else 0 := by
  have hnonneg : 0 ≤ a % b := Int.emod_nonneg a hb
  rw [Int.floor_eq_iff]
  rcases lt_or_gt_of_ne hb with hneg | hpos
  · have hneg' : (b : ℚ) < 0 := by exact_mod_cast hneg
    have hlt : a % b < -b := Int.emod_lt_of_neg a hneg
    rw [le_div_iff_of_neg hneg', div_lt_iff_of_neg hneg']
    by_cases heven : a % b = 0
    · rw [if_neg fun h => h.2 heven, heven]
      constructor
      · simp
      · simpa using hneg
    · rw [if_pos ⟨hneg, heven⟩]
      have hbelow : a % b ≤ -1 * b := by omega
      have habove : (-1 + 1) * b < a % b := by omega
      exact_mod_cast And.intro hbelow habove
  · have hpos' : (0 : ℚ) < b := by exact_mod_cast hpos
    have hlt : a % b < b := Int.emod_lt_of_pos a hpos
    rw [le_div_iff₀ hpos', div_lt_iff₀ hpos', if_neg fun h => absurd h.1 (by omega)]
    have hbelow : 0 * b ≤ a % b := by omega
    have habove : a % b < (0 + 1) * b := by omega
    exact_mod_cast And.intro hbelow habove

theorem floor_div (a : Int) {b : Int} (hb : b ≠ 0) :
    ⌊(a : ℚ) / b⌋ = if FallsBelow a b then a / b - 1 else a / b := by
  have hb' : (b : ℚ) ≠ 0 := by exact_mod_cast hb
  have hparts : (a : ℚ) / b = ((a / b : Int) : ℚ) + ((a % b : Int) : ℚ) / b := by
    rw [eq_comm, add_comm, div_add' _ _ _ hb', div_left_inj' hb']
    exact_mod_cast Int.emod_add_ediv_mul a b
  rw [hparts, Int.floor_intCast_add, floor_emod_div a hb]
  split <;> ring

theorem sub_mul_floor_div (a : Int) {b : Int} (hb : b ≠ 0) :
    a - b * ⌊(a : ℚ) / b⌋ = if FallsBelow a b then a % b + b else a % b := by
  have hparts := Int.emod_add_mul_ediv a b
  rw [floor_div a hb]
  split
  · rw [mul_sub]
    omega
  · omega

/-! ### What fits -/

section Range

variable {a b : Int}

/-- The one quotient of degrees that is no degree. -/
theorem fits32_ediv_iff (ha : fits32 a = true) (hb : fits32 b = true) (hzero : b ≠ 0) :
    fits32 (a / b) = true ↔ ¬(a = -2147483648 ∧ b = -1) := by
  have hsize : (a / b).natAbs ≤ a.natAbs := Int.natAbs_ediv_le_natAbs a b
  have hnonneg : 0 ≤ a % b := Int.emod_nonneg a hzero
  have hlt : a % b < b.natAbs := Int.emod_lt a hzero
  have hparts := Int.emod_add_mul_ediv a b
  rw [fits32_iff] at ha hb ⊢
  constructor
  · rintro hfits ⟨rfl, rfl⟩
    omega
  · intro hlowest
    refine ⟨by omega, ?_⟩
    -- a quotient is no larger than the dividend, so 2 ^ 31 is the only one in question
    by_contra habove
    have hquotient : a / b = 2147483648 := by omega
    rw [hquotient] at hparts
    omega

theorem fits32_floor_div (ha : fits32 a = true) (hb : fits32 b = true) (hzero : b ≠ 0) :
    fits32 ⌊(a : ℚ) / b⌋ = fits32 (a / b) := by
  have hsize : (a / b).natAbs ≤ a.natAbs := Int.natAbs_ediv_le_natAbs a b
  have hnonneg : 0 ≤ a % b := Int.emod_nonneg a hzero
  have hparts := Int.emod_add_mul_ediv a b
  rw [fits32_iff] at ha hb
  rw [floor_div a hzero]
  split
  · next hbelow =>
    obtain ⟨hneg, heven⟩ := hbelow
    -- the divisor is at most -2, for it leaves a remainder, so the quotient is far from both ends
    have hlowest : a / b ≠ -2147483648 := by
      intro hquotient
      rw [hquotient] at hparts
      omega
    have hhighest : a / b ≠ 2147483648 := by
      intro hquotient
      have hlt : a % b < -b := Int.emod_lt_of_neg a hneg
      rw [hquotient] at hparts
      omega
    rw [Bool.eq_iff_iff, fits32_iff, fits32_iff]
    omega
  · rfl

theorem fits32_sub_mul_floor_div (hb : fits32 b = true) (hzero : b ≠ 0) :
    fits32 (a - b * ⌊(a : ℚ) / b⌋) = true := by
  have hnonneg : 0 ≤ a % b := Int.emod_nonneg a hzero
  have hlt : a % b < b.natAbs := Int.emod_lt a hzero
  rw [fits32_iff] at hb
  rw [sub_mul_floor_div a hzero]
  split
  · next hbelow =>
    have hneg : b < 0 := hbelow.1
    rw [fits32_iff]
    omega
  · rw [fits32_iff]
    omega

end Range

/-! ### Operators -/

namespace Arithmetic

/-- The result of an operator on integers. -/
def exact (op : Arithmetic) (a b : Int) : Int :=
  match op with
  | .add => a + b
  | .subtract => a - b
  | .multiply => a * b
  | .divide => ⌊(a : ℚ) / b⌋
  | .modulo => a - b * ⌊(a : ℚ) / b⌋

/-- Right operands that the operator has a result for. -/
def Admits (op : Arithmetic) (b : Int) : Prop := op = .divide ∨ op = .modulo → b ≠ 0

instance (op : Arithmetic) (b : Int) : Decidable (op.Admits b) :=
  inferInstanceAs (Decidable (op = .divide ∨ op = .modulo → b ≠ 0))

/-- The remainder that comes with a quotient that does not fit. -/
def LosesRemainder (op : Arithmetic) (a b : Int) : Prop := op = .modulo ∧ a = -2147483648 ∧ b = -1

instance (op : Arithmetic) (a b : Int) : Decidable (op.LosesRemainder a b) :=
  inferInstanceAs (Decidable (op = .modulo ∧ a = -2147483648 ∧ b = -1))

variable {op : Arithmetic} {a b result : Int}

theorem divides_iff : op.divides = true ↔ op = .divide ∨ op = .modulo := by
  cases op <;> simp [divides]

theorem checked_divide_eq_some_iff (ha : fits32 a = true) (hb : fits32 b = true) (hzero : b ≠ 0) :
    checked .divide a b = some result ↔ fits32 result = true ∧ result = exact .divide a b := by
  have hfloor : exact .divide a b = if FallsBelow a b then a / b - 1 else a / b := floor_div a hzero
  have hfits : fits32 (exact .divide a b) = fits32 (a / b) := fits32_floor_div ha hb hzero
  rw [checked, divided32_map_eq_some_iff, ← hfits]
  constructor
  · rintro ⟨hexact, hresult⟩
    have hresult : result = exact .divide a b := hresult.trans hfloor.symm
    exact ⟨hresult ▸ hexact, hresult⟩
  · rintro ⟨hexact, hresult⟩
    exact ⟨hresult ▸ hexact, hresult.trans hfloor⟩

theorem checked_modulo_eq_some_iff (ha : fits32 a = true) (hb : fits32 b = true) (hzero : b ≠ 0) :
    checked .modulo a b = some result ↔
      ¬(a = -2147483648 ∧ b = -1) ∧ fits32 result = true ∧ result = exact .modulo a b := by
  have hfloor : exact .modulo a b = if FallsBelow a b then a % b + b else a % b := sub_mul_floor_div a hzero
  have hfits : fits32 (exact .modulo a b) = true := fits32_sub_mul_floor_div hb hzero
  rw [checked, divided32_map_eq_some_iff, fits32_ediv_iff ha hb hzero]
  refine and_congr_right fun _ => ?_
  constructor
  · intro hresult
    have hresult : result = exact .modulo a b := hresult.trans hfloor.symm
    exact ⟨hresult ▸ hfits, hresult⟩
  · rintro ⟨-, hresult⟩
    exact hresult.trans hfloor

/-- What fits is the exact result, and it is there where it fits, but for the
    one remainder. -/
theorem checked_eq_some_iff (ha : fits32 a = true) (hb : fits32 b = true) (hop : op.Admits b) :
    op.checked a b = some result ↔ ¬op.LosesRemainder a b ∧ fits32 result = true ∧ result = op.exact a b := by
  cases op with
  | add => simp [LosesRemainder, checked, exact, checked32_eq_some_iff]
  | subtract => simp [LosesRemainder, checked, exact, checked32_eq_some_iff]
  | multiply => simp [LosesRemainder, checked, exact, checked32_eq_some_iff]
  | divide => simp [LosesRemainder, checked_divide_eq_some_iff ha hb (hop (.inl rfl))]
  | modulo =>
    rw [checked_modulo_eq_some_iff ha hb (hop (.inr rfl))]
    simp [LosesRemainder]

theorem divides_and_eq_zero_iff : (op.divides && b == 0) = true ↔ ¬op.Admits b := by
  simp [Admits, divides_iff]

theorem apply_of_not_admits (a : Int) (hop : ¬op.Admits b) : op.apply a b = .error .divisionByZero :=
  if_pos (divides_and_eq_zero_iff.mpr hop)

theorem apply_of_admits (a : Int) (hop : op.Admits b) :
    op.apply a b =
      match op.checked a b with
      | some result => .ok result
      | none => .error (.overflow a op b) :=
  if_neg fun h => divides_and_eq_zero_iff.mp h hop

theorem apply_eq_ok_iff : op.apply a b = .ok result ↔ op.Admits b ∧ op.checked a b = some result := by
  by_cases hop : op.Admits b
  · rw [apply_of_admits a hop]
    cases op.checked a b <;> simp [hop]
  · simp [apply_of_not_admits a hop, hop]

/-- **Arithmetic on degrees is exact, with floors, but for one remainder.**  A
    zero is refused as a divisor and nowhere else; a result is missing where the
    exact one does not fit into 32 bits, and for the lowest degree modulo minus
    one, whose remainder is zero. -/
theorem apply_exact (ha : fits32 a = true) (hb : fits32 b = true) (op : Arithmetic) :
    (op.apply a b = .error .divisionByZero ↔ (op = .divide ∨ op = .modulo) ∧ b = 0) ∧
      (op.apply a b = .error (.overflow a op b) ↔
        op.Admits b ∧ (fits32 (op.exact a b) = false ∨ op.LosesRemainder a b)) ∧
        ∀ result, op.apply a b = .ok result ↔
          op.Admits b ∧ ¬op.LosesRemainder a b ∧ fits32 result = true ∧ result = op.exact a b := by
  have hzero : (op = .divide ∨ op = .modulo) ∧ b = 0 ↔ ¬op.Admits b := by simp [Admits]
  rw [hzero]
  by_cases hop : op.Admits b
  · have hchecked (result : Int) :
        op.checked a b = some result ↔ ¬op.LosesRemainder a b ∧ fits32 result = true ∧ result = op.exact a b :=
      checked_eq_some_iff ha hb hop
    rw [apply_of_admits a hop]
    cases h : op.checked a b with
    | none =>
      have hmissing : fits32 (op.exact a b) = false ∨ op.LosesRemainder a b := by
        by_contra hpresent
        rw [not_or, Bool.not_eq_false] at hpresent
        have hsome := (hchecked (op.exact a b)).mpr ⟨hpresent.2, hpresent.1, rfl⟩
        rw [h] at hsome
        cases hsome
      refine ⟨by simp [hop], by simp [hop, hmissing], ?_⟩
      intro result
      rw [← hchecked result, h]
      simp
    | some n =>
      obtain ⟨hloses, hfits, hexact⟩ := (hchecked n).mp h
      rw [hexact] at hfits
      refine ⟨by simp [hop], by simp [hfits, hloses], ?_⟩
      intro result
      rw [← hchecked result, h]
      simp [hop]
  · rw [apply_of_not_admits a hop]
    simp [hop]

theorem apply_exact_of_negative_divisor :
    fits32 7 = true ∧ fits32 (-2) = true ∧ Arithmetic.divide.apply 7 (-2) = .ok (-4) ∧
      Arithmetic.modulo.apply 7 (-2) = .ok (-1) := by
  refine ⟨rfl, rfl, ?_, ?_⟩
  · exact ((apply_exact rfl rfl .divide).2.2 (-4)).mpr (by decide +kernel)
  · exact ((apply_exact rfl rfl .modulo).2.2 (-1)).mpr (by decide +kernel)

/-- The lowest degree is a multiple of minus one, and yet its remainder is an
    overflow, in a pattern as well. -/
theorem lowest_modulo_minus_one_overflows :
    fits32 (-2147483648) = true ∧ fits32 (-1) = true ∧ Arithmetic.modulo.Admits (-1) ∧
      Arithmetic.modulo.exact (-2147483648) (-1) = 0 ∧ fits32 0 = true ∧
      Arithmetic.modulo.apply (-2147483648) (-1) = .error (.overflow (-2147483648) .modulo (-1)) ∧
      ∃ nodes, readPattern "(-2147483648..-2147483648)%(-1)" = .ok nodes ∧
        (evaluate nodes (.ofOptions {}) (.ofSeed 0)).result = .error (.overflow (-2147483648) .modulo (-1)) := by
  have hcheck : (readPattern "(-2147483648..-2147483648)%(-1)").toOption.any (fun nodes =>
      failsOf (.overflow (-2147483648) .modulo (-1)) (evaluate nodes (.ofOptions {}) (.ofSeed 0)).result) = true := by
    decide +kernel
  obtain ⟨nodes, hread, hfails⟩ := eq_ok_of_any hcheck
  exact ⟨rfl, rfl, by decide, by decide +kernel, rfl, rfl, nodes, hread, eq_error_of_failsOf hfails⟩

end Arithmetic

end NumberedMelody
