/-
  NumberedMelody/Proofs/Quantity.lean
  ===================================
  **Totals and greatest values without rounding.**  Among rational numbers the
  total is the sum, whatever it is added up from, and multiples of all quantities
  have multiples of the total and of the greatest value.
-/
import Mathlib.Algebra.BigOperators.Ring.List
import Mathlib.Algebra.Order.Field.Basic
import Mathlib.Algebra.Order.Field.Rat
import NumberedMelody.Quantity

namespace NumberedMelody

namespace Quantity

variable {xs : List Rat} {factor : Rat}

theorem sum_eq_sum (xs : List Rat) : sum xs = xs.sum := List.sum_eq_foldl.symm

theorem greatest_eq_foldl_max (xs : List Rat) : greatest xs = xs.foldl max 0 := by
  have hmax : (fun a b : Rat => if isAtMost a b then b else a) = max := by
    funext a b
    rw [max_def]
    exact if_congr decide_eq_true_iff rfl rfl
  rw [greatest, hmax]
  rfl

theorem sum_map_mul (xs : List Rat) (factor : Rat) : sum (xs.map (· * factor)) = sum xs * factor := by
  rw [sum_eq_sum, sum_eq_sum, List.sum_map_mul_right, List.map_id']

/-- The greatest of multiples is the multiple of the greatest. -/
theorem greatest_map_mul (xs : List Rat) (h : 0 ≤ factor) : greatest (xs.map (· * factor)) = greatest xs * factor := by
  have hrun : ∀ start : Rat, (xs.map (· * factor)).foldl max (start * factor) = xs.foldl max start * factor := by
    induction xs with
    | nil => exact fun _ => rfl
    | cons x xs ih =>
      intro start
      rw [List.map_cons, List.foldl_cons, List.foldl_cons, ← ih, max_mul_of_nonneg _ _ h]
  have hzero := hrun 0
  rwa [zero_mul, ← greatest_eq_foldl_max, ← greatest_eq_foldl_max] at hzero

theorem le_greatest {x : Rat} (hx : x ∈ xs) : x ≤ greatest xs := by
  have hrun : ∀ start : Rat, start ≤ xs.foldl max start ∧ ∀ x ∈ xs, x ≤ xs.foldl max start := by
    clear hx
    induction xs with
    | nil => exact fun start => ⟨le_rfl, fun _ hx => nomatch hx⟩
    | cons first xs ih =>
      intro start
      obtain ⟨hstart, hall⟩ := ih (max start first)
      refine ⟨(le_max_left ..).trans hstart, ?_⟩
      intro x hx
      rcases List.mem_cons.mp hx with rfl | hx
      · exact (le_max_right ..).trans hstart
      · exact hall x hx
  rw [greatest_eq_foldl_max]
  exact (hrun 0).2 x hx

end Quantity

end NumberedMelody
