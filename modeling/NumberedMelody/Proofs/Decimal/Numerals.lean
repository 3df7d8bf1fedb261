/-
  NumberedMelody/Proofs/Decimal/Numerals.lean
  ===========================================
  **Numerals that are read back.**  A whole number is written with the digits
  that its value is read from.  A decimal in positional layout, with a point
  and a zero behind it if it is whole, is split into its two runs of digits
  again, which stand for the same decimal, if perhaps on a finer grid.
-/
import Mathlib
import NumberedMelody.Decimal.Layout
import NumberedMelody.Decimal.Numeral

namespace NumberedMelody.Decimal

/-! ### Runs of digits -/

/-- The shortest way of writing a whole number: no zero in front of other digits. -/
structure WholeDigits (digits : List Char) : Prop where
  ne_nil : digits ≠ []
  isDigit : ∀ c ∈ digits, c.isDigit = true
  leading : digits.head? = some '0' → digits.length = 1

theorem digitsValue_eq (digits : List Char) : digitsValue digits = Nat.ofDigitChars 10 digits 0 := by
  simp only [digitsValue, Nat.ofDigitChars, Nat.mul_comm 10]

theorem digitsValue_toDigits (n : Nat) : digitsValue (Nat.toDigits 10 n) = n := by
  rw [digitsValue_eq, Nat.ofDigitChars_ten_toDigits]

theorem digitsValue_append_zeros (digits : List Char) (n : Nat) :
    digitsValue (digits ++ List.replicate n '0') = digitsValue digits * 10 ^ n := by
  rw [digitsValue_eq, digitsValue_eq, Nat.ofDigitChars_append, Nat.ofDigitChars_replicate_zero, Nat.mul_comm]

theorem digitsValue_zeros_append (digits : List Char) (n : Nat) :
    digitsValue (List.replicate n '0' ++ digits) = digitsValue digits := by
  rw [digitsValue_eq, digitsValue_eq, Nat.ofDigitChars_append, Nat.ofDigitChars_replicate_zero, Nat.mul_zero]

theorem eq_zero_of_head_toDigits {n : Nat} (h : (Nat.toDigits 10 n).head? = some '0') : n = 0 := by
  induction n using Nat.base_induction 10 (by decide) with
  | single m hm =>
    rw [Nat.toDigits_of_lt_base hm] at h
    have hdigit : Nat.digitChar m = '0' := Option.some.inj h
    have hcheck : ∀ m < 10, Nat.digitChar m = '0' → m = 0 := by decide
    exact hcheck m hm hdigit
  | digit m k hk hm ih =>
    rw [← Nat.toDigits_append_toDigits (by decide) hm hk, List.head?_append_of_ne_nil _ Nat.toDigits_ne_nil] at h
    exact absurd (ih h) hm.ne'

theorem wholeDigits_toDigits (n : Nat) : WholeDigits (Nat.toDigits 10 n) where
  ne_nil := Nat.toDigits_ne_nil
  isDigit _ hc := Nat.isDigit_of_mem_toDigits (by decide) (by decide) hc
  leading h := by
    rw [eq_zero_of_head_toDigits h]
    rfl

theorem isDigit_replicate_zero {n : Nat} : ∀ c ∈ List.replicate n '0', c.isDigit = true := by
  intro c hc
  rw [List.eq_of_mem_replicate hc]
  rfl

/-! ### Two runs and a point -/

/-- Digits before and after a point stand for a decimal. -/
structure Pointed (whole fraction : List Char) (d : Digits) : Prop where
  isWhole : WholeDigits whole
  ne_nil : fraction ≠ []
  isDigit : ∀ c ∈ fraction, c.isDigit = true
  value : ∃ finer : Nat,
    digitsValue (whole ++ fraction) = d.coefficient * 10 ^ finer ∧ (finer : Int) - fraction.length = d.exponent

theorem pointed_whole {digits : List Char} (hdigits : WholeDigits digits) {zeros : Nat}
    (hzero : digits = ['0'] → zeros = 0) :
    Pointed (digits ++ List.replicate zeros '0') ['0'] ⟨digitsValue digits, zeros⟩ where
  isWhole := by
    refine ⟨by simp [hdigits.ne_nil], fun c hc => ?_, fun h => ?_⟩
    · exact (List.mem_append.mp hc).elim (hdigits.isDigit c) (isDigit_replicate_zero c)
    · rw [List.head?_append_of_ne_nil _ hdigits.ne_nil] at h
      have hlone : digits = ['0'] := by
        obtain ⟨c, hc⟩ := List.length_eq_one_iff.mp (hdigits.leading h)
        rw [hc] at h ⊢
        exact congrArg (fun c => [c]) (Option.some.inj h)
      rw [hlone, hzero hlone]
      rfl
  ne_nil := List.cons_ne_nil _ _
  isDigit := isDigit_replicate_zero (n := 1)
  value := by
    refine ⟨zeros + 1, ?_, ?_⟩
    · rw [List.append_assoc]
      exact (congrArg (fun more => digitsValue (digits ++ more)) (List.replicate_succ' ..).symm).trans
        (digitsValue_append_zeros digits (zeros + 1))
    · push_cast
      simp

theorem pointed_split {digits : List Char} (hdigits : WholeDigits digits) {places : Nat} (hsome : places ≠ 0)
    (hplaces : places < digits.length) :
    Pointed (digits.take (digits.length - places)) (digits.drop (digits.length - places))
      ⟨digitsValue digits, -(places : Int)⟩ where
  isWhole := by
    refine ⟨?_, fun c hc => hdigits.isDigit c (List.mem_of_mem_take hc), fun h => ?_⟩
    · rw [Ne, List.take_eq_nil_iff, not_or]
      exact ⟨by omega, hdigits.ne_nil⟩
    · rw [List.head?_take, if_neg (by omega)] at h
      have := hdigits.leading h
      omega
  ne_nil := by
    rw [Ne, List.drop_eq_nil_iff]
    omega
  isDigit c hc := hdigits.isDigit c (List.mem_of_mem_drop hc)
  value := by
    refine ⟨0, ?_, ?_⟩
    · rw [List.take_append_drop, pow_zero, Nat.mul_one]
    · rw [List.length_drop]
      have : digits.length - (digits.length - places) = places := by omega
      rw [this]
      simp

theorem pointed_small {digits : List Char} (hdigits : WholeDigits digits) {places : Nat}
    (hplaces : digits.length ≤ places) :
    Pointed ['0'] (List.replicate (places - digits.length) '0' ++ digits) ⟨digitsValue digits, -(places : Int)⟩ where
  isWhole := ⟨List.cons_ne_nil _ _, isDigit_replicate_zero (n := 1), fun _ => rfl⟩
  ne_nil := by simp [hdigits.ne_nil]
  isDigit c hc := (List.mem_append.mp hc).elim (isDigit_replicate_zero c) (hdigits.isDigit c)
  value := by
    refine ⟨0, ?_, ?_⟩
    · rw [pow_zero, Nat.mul_one]
      exact (digitsValue_zeros_append _ 1).trans (digitsValue_zeros_append digits _)
    · rw [List.length_append, List.length_replicate, Nat.sub_add_cancel hplaces]
      simp

/-- A positional text has the digits around its point, or those before it. -/
theorem exists_pointed {d : Digits} (hzero : d.coefficient = 0 → d.exponent = 0) :
    ∃ whole fraction, Pointed whole fraction d ∧
      ((positional d).toList = whole ++ '.' :: fraction ∨ (positional d).toList = whole ∧ fraction = ['0']) := by
  obtain ⟨coefficient, exponent⟩ := d
  have hdigits := wholeDigits_toDigits coefficient
  have hvalue := digitsValue_toDigits coefficient
  have hlone : Nat.toDigits 10 coefficient = ['0'] → coefficient = 0 := fun h =>
    eq_zero_of_head_toDigits (by rw [h]; rfl)
  unfold positional
  simp only [Nat.toList_repr]
  generalize Nat.toDigits 10 coefficient = digits at *
  subst hvalue
  split_ifs with hwhole hpoint
  · obtain ⟨zeros, rfl⟩ := Int.eq_ofNat_of_zero_le hwhole
    refine ⟨_, _, pointed_whole hdigits fun h => ?_, .inr ⟨?_, rfl⟩⟩
    · exact Int.ofNat_eq_zero.mp (hzero (hlone h))
    · simp [Decimal.zeros]
  · obtain ⟨places, rfl⟩ : ∃ places : Nat, exponent = -(places : Int) := ⟨exponent.natAbs, by omega⟩
    rw [Int.neg_neg, Int.toNat_natCast] at *
    refine ⟨_, _, pointed_split hdigits (by omega) hpoint, .inl ?_⟩
    simp [withPoint]
  · obtain ⟨places, rfl⟩ : ∃ places : Nat, exponent = -(places : Int) := ⟨exponent.natAbs, by omega⟩
    rw [Int.neg_neg, Int.toNat_natCast] at *
    refine ⟨_, _, pointed_small hdigits (by omega), .inl ?_⟩
    simp [Decimal.zeros]

/-! ### Splitting a numeral -/

theorem digitRun_append {digits rest : List Char} (hdigits : ∀ c ∈ digits, c.isDigit = true)
    (hrest : ∀ c ∈ rest.head?, c.isDigit = false) : digitRun (digits ++ rest) = (digits, rest) := by
  have hstop : rest.takeWhile Char.isDigit = [] ∧ rest.dropWhile Char.isDigit = rest := by
    cases rest with
    | nil => exact ⟨rfl, rfl⟩
    | cons c more => simp [hrest c rfl]
  unfold digitRun
  rw [List.takeWhile_append_of_pos hdigits, List.dropWhile_append_of_pos hdigits, hstop.1, hstop.2, List.append_nil]

theorem digitRun_whole {digits : List Char} (h : ∀ c ∈ digits, c.isDigit = true) : digitRun digits = (digits, []) := by
  have hrun : digitRun (digits ++ []) = (digits, []) := digitRun_append h fun _ hc => nomatch hc
  rwa [List.append_nil] at hrun

theorem scan_whole {whole : List Char} (h : ∀ c ∈ whole, c.isDigit = true) :
    Numeral.scan whole = (⟨whole, none, none⟩, []) := by
  have hrun : digitRun whole = (whole, []) := digitRun_whole h
  simp only [Numeral.scan, hrun]

theorem scan_pointed {whole fraction : List Char} (hwhole : ∀ c ∈ whole, c.isDigit = true)
    (hfraction : ∀ c ∈ fraction, c.isDigit = true) :
    Numeral.scan (whole ++ '.' :: fraction) = (⟨whole, some fraction, none⟩, []) := by
  have hrun : digitRun (whole ++ '.' :: fraction) = (whole, '.' :: fraction) :=
    digitRun_append hwhole fun _ hc => Option.some.inj hc ▸ rfl
  have hmore : digitRun fraction = (fraction, []) := digitRun_whole hfraction
  simp only [Numeral.scan, hrun, hmore]

end NumberedMelody.Decimal
