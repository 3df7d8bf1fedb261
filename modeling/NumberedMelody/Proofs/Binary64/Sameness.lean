/-
  NumberedMelody/Proofs/Binary64/Sameness.lean
  ============================================
  **Doubles that compare equal.**  Comparison takes the two zeros for one
  another and nothing else for anything but itself.  Sums and products of
  doubles that compare equal compare equal again, and so do quotients by one
  divisor; order and whole parts do not tell the zeros apart either.
-/
import NumberedMelody.Binary64
import NumberedMelody.Quantity
import Mathlib

namespace NumberedMelody.Binary64

open Float.Model (UnpackedFloat)

/-- Equal by comparison; what is not a number counts as equal to itself here. -/
def Same (x y : Float) : Prop := x == y ∨ (x.isNaN ∧ y.isNaN)

theorem same_iff {x y : Float} : Same x y ↔ x = y ∨ (x = 0 ∧ y = -0) ∨ (x = -0 ∧ y = 0) := by
  constructor
  · rintro (h | ⟨hx, hy⟩)
    · exact (Float.beq_iff_ne_nan_and_eq.mp h).2.2
    · rw [Float.isNaN_eq_decide_eq_nan, decide_eq_true_eq] at hx hy
      exact .inl (hx.trans hy.symm)
  · rintro (rfl | ⟨rfl, rfl⟩ | ⟨rfl, rfl⟩)
    · by_cases hnan : x = Float.nan
      · exact .inr ⟨by simp [hnan], by simp [hnan]⟩
      · exact .inl (Float.beq_self_iff.mpr hnan)
    · exact .inl rfl
    · exact .inl rfl

namespace Same

variable {x x' y y' z : Float}

@[refl] theorem refl (x : Float) : Same x x := same_iff.mpr (.inl rfl)

theorem symm (h : Same x y) : Same y x := by
  rw [same_iff] at h ⊢
  grind

theorem trans (h : Same x y) (h' : Same y z) : Same x z := by
  rw [same_iff] at h h' ⊢
  grind

instance : Std.Refl Same := ⟨refl⟩

theorem of_beq (h : x == y) : Same x y := .inl h

/-- A function into numbers that does not tell the zeros apart tells no doubles
    apart that compare equal. -/
theorem congr (h : Same x y) {f : Float → Float} (hzero : Same (f 0) (f (-0))) : Same (f x) (f y) := by
  obtain rfl | ⟨rfl, rfl⟩ | ⟨rfl, rfl⟩ := same_iff.mp h
  · exact refl _
  · exact hzero
  · exact hzero.symm

theorem congr_eq (h : Same x y) {α : Sort*} {f : Float → α} (hzero : f 0 = f (-0)) : f x = f y := by
  obtain rfl | ⟨rfl, rfl⟩ | ⟨rfl, rfl⟩ := same_iff.mp h
  · rfl
  · exact hzero
  · exact hzero.symm

/-! ### Sums, products and quotients -/

theorem packed_zero (sign sign' : UnpackedFloat.Sign) :
    Same (.ofModel (.pack (.zero sign))) (.ofModel (.pack (.zero sign'))) := by
  cases sign <;> cases sign' <;> exact .inl rfl

theorem zero_add (y : Float) : Same (0 + y) (-0 + y) := by
  change Same (.ofModel (.pack (UnpackedFloat.add .binary64 (.zero .positive) y.toModel.unpack)))
    (.ofModel (.pack (UnpackedFloat.add .binary64 (.zero .negative) y.toModel.unpack)))
  cases y.toModel.unpack with
  | zero sign => cases sign <;> exact packed_zero _ _
  | _ => exact refl _

theorem add_zero (x : Float) : Same (x + 0) (x + -0) := by
  change Same (.ofModel (.pack (UnpackedFloat.add .binary64 x.toModel.unpack (.zero .positive))))
    (.ofModel (.pack (UnpackedFloat.add .binary64 x.toModel.unpack (.zero .negative))))
  cases x.toModel.unpack with
  | zero sign => cases sign <;> exact packed_zero _ _
  | _ => exact refl _

theorem zero_mul (y : Float) : Same (0 * y) (-0 * y) := by
  change Same (.ofModel (.pack (UnpackedFloat.mul .binary64 (.zero .positive) y.toModel.unpack)))
    (.ofModel (.pack (UnpackedFloat.mul .binary64 (.zero .negative) y.toModel.unpack)))
  cases y.toModel.unpack with
  | zero | finite => exact packed_zero _ _
  | _ => exact refl _

theorem mul_zero (x : Float) : Same (x * 0) (x * -0) := by
  change Same (.ofModel (.pack (UnpackedFloat.mul .binary64 x.toModel.unpack (.zero .positive))))
    (.ofModel (.pack (UnpackedFloat.mul .binary64 x.toModel.unpack (.zero .negative))))
  cases x.toModel.unpack with
  | zero | finite => exact packed_zero _ _
  | _ => exact refl _

theorem zero_div (y : Float) : Same (0 / y) (-0 / y) := by
  change Same (.ofModel (.pack (UnpackedFloat.div .binary64 (.zero .positive) y.toModel.unpack)))
    (.ofModel (.pack (UnpackedFloat.div .binary64 (.zero .negative) y.toModel.unpack)))
  cases y.toModel.unpack with
  | infinity | finite => exact packed_zero _ _
  | _ => exact refl _

theorem add (hx : Same x x') (hy : Same y y') : Same (x + y) (x' + y') := by
  have hleft : Same (x + y) (x' + y) := hx.congr (f := (· + y)) (zero_add y)
  have hright : Same (x' + y) (x' + y') := hy.congr (f := (x' + ·)) (add_zero x')
  exact hleft.trans hright

theorem mul (hx : Same x x') (hy : Same y y') : Same (x * y) (x' * y') := by
  have hleft : Same (x * y) (x' * y) := hx.congr (f := (· * y)) (zero_mul y)
  have hright : Same (x' * y) (x' * y') := hy.congr (f := (x' * ·)) (mul_zero x')
  exact hleft.trans hright

/-- The divisors have to be the same double: a quotient by zero shows the sign
    of the zero. -/
theorem div (hx : Same x x') (y : Float) : Same (x / y) (x' / y) := hx.congr (f := (· / y)) (zero_div y)

theorem foldl {f : Float → Float → Float} (hf : ∀ {a a' b b'}, Same a a' → Same b b' → Same (f a b) (f a' b'))
    {xs ys : List Float} (h : List.Forall₂ Same xs ys) (hstart : Same x y) : Same (xs.foldl f x) (ys.foldl f y) := by
  induction h generalizing x y with
  | nil => exact hstart
  | cons hhead _ ih => exact ih (hf hstart hhead)

theorem sum {xs ys : List Float} (h : List.Forall₂ Same xs ys) : Same (Quantity.sum xs) (Quantity.sum ys) :=
  foldl add h (refl _)

/-! ### Order -/

theorem zero_le (y : Float) : Float.le 0 y = Float.le (-0) y := by
  change decide (UnpackedFloat.le (.zero .positive) y.toModel.unpack = true) =
    decide (UnpackedFloat.le (.zero .negative) y.toModel.unpack = true)
  cases y.toModel.unpack with
  | notANumber => rfl
  | zero sign | infinity sign | finite sign => cases sign <;> rfl

theorem le_zero (x : Float) : Float.le x 0 = Float.le x (-0) := by
  change decide (UnpackedFloat.le x.toModel.unpack (.zero .positive) = true) =
    decide (UnpackedFloat.le x.toModel.unpack (.zero .negative) = true)
  cases x.toModel.unpack with
  | notANumber => rfl
  | zero sign | infinity sign | finite sign => cases sign <;> rfl

theorem isAtMost (hx : Same x x') (hy : Same y y') : Quantity.isAtMost x y = Quantity.isAtMost x' y' := by
  have hleft : Float.le x y = Float.le x' y := hx.congr_eq (f := (Float.le · y)) (zero_le y)
  have hright : Float.le x' y = Float.le x' y' := hy.congr_eq (f := (Float.le x' ·)) (le_zero x')
  exact congrArg (fun b : Bool => decide (b = true)) (hleft.trans hright)

theorem greatest {xs ys : List Float} (h : List.Forall₂ Same xs ys) :
    Same (Quantity.greatest xs) (Quantity.greatest ys) := by
  refine foldl ?_ h (refl _)
  intro a a' b b' ha hb
  rw [ha.isAtMost hb]
  split
  · exact hb
  · exact ha

/-- Neither of the zeros is above zero. -/
theorem eq_of_positive (h : Same x y) (hx : Quantity.isAtMost x Quantity.zero = false) : x = y := by
  obtain rfl | ⟨rfl, rfl⟩ | ⟨rfl, rfl⟩ := same_iff.mp h
  · rfl
  · exact absurd hx (by decide +kernel)
  · exact absurd hx (by decide +kernel)

/-! ### Whole parts -/

theorem floor32 (h : Same x y) : floor32 x = floor32 y := h.congr_eq (by decide +kernel)

theorem round32 (h : Same x y) : round32 x = round32 y := h.congr_eq (by decide +kernel)

end Same

end NumberedMelody.Binary64
