/-
  NumberedMelody/Proofs/Random/Intervals.lean
  ===========================================
  **Random values stay in bounds.**  The value between two bounds that a raw draw
  stands for is a remainder, counted from the lower bound.  Every value between the
  bounds stands for some draw (`exists_draw`), and asking for one takes one draw
  (`Source.integer_eq`, `Source.index_eq`).

  Between bounds of 32 bits there are up to `2 ^ 32` values, more than 32 bits can
  count.  A machine counts them in 64 bits, and on the way to the value it goes
  from signed to unsigned words and back.  Every word on that way holds the
  integer that it is meant to hold (`Words.Exact`).
-/
import Mathlib.Algebra.Ring.Int.Defs
import Mathlib.Algebra.Ring.Nat
import NumberedMelody.Proofs.Random.Tape

namespace NumberedMelody.Random

/-! ### Between two bounds -/

theorem between_bounds (a b : Int) (draw : UInt64) : min a b ≤ between a b draw ∧ between a b draw ≤ max a b := by
  have hlt : draw.toNat % (max a b - min a b + 1).toNat < (max a b - min a b + 1).toNat :=
    Nat.mod_lt _ (by omega)
  unfold between
  omega

/-- Bounds in their order have the same values between them. -/
theorem between_ordered (a b : Int) (draw : UInt64) : between (min a b) (max a b) draw = between a b draw := by
  have hmin : min (min a b) (max a b) = min a b := by omega
  have hmax : max (min a b) (max a b) = max a b := by omega
  rw [between, hmin, hmax, between]

/-- **Every value is drawn**, if draws can count the values between the bounds. -/
theorem exists_draw {a b : Int} (hcounted : max a b - min a b < 2 ^ 64) {value : Int} (hlow : min a b ≤ value)
    (hhigh : value ≤ max a b) : ∃ draw : UInt64, between a b draw = value := by
  refine ⟨.ofNat (value - min a b).toNat, ?_⟩
  have hdraw : (UInt64.ofNat (value - min a b).toNat).toNat = (value - min a b).toNat :=
    UInt64.toNat_ofNat_of_lt' (by rw [UInt64.size]; omega)
  rw [between, hdraw, Nat.mod_eq_of_lt (by omega)]
  omega

namespace Source

/-- **A random integer takes one draw.** -/
theorem integer_eq (a b : Int) (s : Source) : s.integer a b = (between a b (s.nth 0), s.skip 1) := rfl

/-- **A random index below a length takes one draw.** -/
theorem index_eq {length : Nat} (hpos : 0 < length) (s : Source) :
    s.index length = ((s.nth 0).toNat % length, s.skip 1) := by
  rw [index, if_neg (Nat.ne_of_gt hpos)]
  rfl

theorem index_lt {length : Nat} (hpos : 0 < length) (s : Source) : (s.index length).1 < length := by
  rw [index_eq hpos]
  exact Nat.mod_lt _ hpos

end Source

/-! ### In words of 32 and 64 bits -/

namespace Words

variable (a b : Int32) (draw : UInt64)

def low : Int32 := if a ≤ b then a else b

def high : Int32 := if a ≤ b then b else a

/-- How far the bounds are apart. -/
def distance : Int64 := (high a b).toInt64 - (low a b).toInt64

/-- How many values there are. -/
def count : Int64 := distance a b + 1

/-- How far above the lower bound the value is. -/
def offset : UInt64 := draw % (count a b).toUInt64

def sum : Int64 := (low a b).toInt64 + (offset a b draw).toInt64

/-- The value between two bounds that a raw draw stands for. -/
def value : Int32 := (sum a b draw).toInt32

/-- Every word on the way to the value holds what it is meant to hold: nothing
    wraps around in a sum or a difference, and nothing is lost where a signed
    word is read as an unsigned one, or a word is shortened. -/
structure Exact : Prop where
  low_eq : (low a b).toInt = min a.toInt b.toInt
  high_eq : (high a b).toInt = max a.toInt b.toInt
  distance_eq : (distance a b).toInt = (high a b).toInt - (low a b).toInt
  count_eq : (count a b).toInt = (distance a b).toInt + 1
  count_pos : 0 < (count a b).toInt
  divisor_eq : ((count a b).toUInt64.toNat : Int) = (count a b).toInt
  offset_eq : ((offset a b draw).toInt64.toInt : Int) = (offset a b draw).toNat
  sum_eq : (sum a b draw).toInt = (low a b).toInt + (offset a b draw).toInt64.toInt
  value_eq : (value a b draw).toInt = (sum a b draw).toInt

variable {a b draw}

theorem toInt_sub_of_bounds {x y : Int64} (hlow : -2 ^ 63 ≤ x.toInt - y.toInt) (hhigh : x.toInt - y.toInt < 2 ^ 63) :
    (x - y).toInt = x.toInt - y.toInt := by
  rw [Int64.toInt_sub]
  exact Int.bmod_eq_of_le (by omega) (by omega)

theorem toInt_add_of_bounds {x y : Int64} (hlow : -2 ^ 63 ≤ x.toInt + y.toInt) (hhigh : x.toInt + y.toInt < 2 ^ 63) :
    (x + y).toInt = x.toInt + y.toInt := by
  rw [Int64.toInt_add]
  exact Int.bmod_eq_of_le (by omega) (by omega)

/-- A signed word that is not negative is read as the same unsigned one. -/
theorem toNat_toUInt64_of_nonneg {x : Int64} (h : 0 ≤ x.toInt) : (x.toUInt64.toNat : Int) = x.toInt := by
  have hcases := x.toBitVec.toInt_eq_toNat_cond
  have hlt := x.toBitVec.isLt
  rw [Int64.toInt_toBitVec, Int64.toNat_toBitVec] at hcases
  rw [Int64.toNat_toBitVec] at hlt
  omega

/-- An unsigned word without the highest bit is read as the same signed one. -/
theorem toInt_toInt64_of_lt {x : UInt64} (h : x.toNat < 2 ^ 63) : x.toInt64.toInt = x.toNat := by
  rw [← Int64.toInt_toBitVec, UInt64.toBitVec_toInt64, BitVec.toInt_eq_toNat_of_lt]
  · rw [UInt64.toNat_toBitVec]
  · rw [UInt64.toNat_toBitVec]
    omega

theorem toInt_toInt32_of_bounds {x : Int64} (hlow : -2 ^ 31 ≤ x.toInt) (hhigh : x.toInt < 2 ^ 31) :
    x.toInt32.toInt = x.toInt := by
  rw [Int64.toInt_toInt32]
  exact Int.bmod_eq_of_le (by omega) (by omega)

theorem toInt_low (a b : Int32) : (low a b).toInt = min a.toInt b.toInt := by
  unfold low
  split
  · next hle => rw [Int.min_eq_left (Int32.le_iff_toInt_le.mp hle)]
  · next hgt => rw [Int.min_eq_right (by rw [Int32.le_iff_toInt_le] at hgt; omega)]

theorem toInt_high (a b : Int32) : (high a b).toInt = max a.toInt b.toInt := by
  unfold high
  split
  · next hle => rw [Int.max_eq_right (Int32.le_iff_toInt_le.mp hle)]
  · next hgt => rw [Int.max_eq_left (by rw [Int32.le_iff_toInt_le] at hgt; omega)]

/-- **Nothing wraps around**, whatever the bounds and the draw are. -/
theorem exact (a b : Int32) (draw : UInt64) : Exact a b draw := by
  have hlow := toInt_low a b
  have hhigh := toInt_high a b
  have hbounds : -2 ^ 31 ≤ (low a b).toInt ∧ (low a b).toInt ≤ (high a b).toInt ∧ (high a b).toInt < 2 ^ 31 := by
    have := (low a b).le_toInt
    have := (high a b).toInt_lt
    omega
  have hdistance : (distance a b).toInt = (high a b).toInt - (low a b).toInt := by
    have hsub := @toInt_sub_of_bounds (high a b).toInt64 (low a b).toInt64
    simp only [Int32.toInt_toInt64] at hsub
    exact hsub (by omega) (by omega)
  -- up to `2 ^ 32` values are too many for 32 bits, but far from the sign of 64
  have hcount : (count a b).toInt = (distance a b).toInt + 1 := by
    have hadd := @toInt_add_of_bounds (distance a b) 1
    rw [Int64.toInt_one] at hadd
    exact hadd (by omega) (by omega)
  have hdivisor := @toNat_toUInt64_of_nonneg (count a b) (by omega)
  have hbelow : (offset a b draw).toNat < (count a b).toUInt64.toNat := by
    rw [offset, UInt64.toNat_mod]
    exact Nat.mod_lt _ (by omega)
  have hoffset := @toInt_toInt64_of_lt (offset a b draw) (by omega)
  -- the remainder is below the count, so the sum does not pass the upper bound
  have hsum : (sum a b draw).toInt = (low a b).toInt + (offset a b draw).toInt64.toInt := by
    have hadd := @toInt_add_of_bounds (low a b).toInt64 (offset a b draw).toInt64
    rw [Int32.toInt_toInt64] at hadd
    exact hadd (by omega) (by omega)
  exact ⟨hlow, hhigh, hdistance, hcount, by omega, hdivisor, hoffset, hsum,
    toInt_toInt32_of_bounds (by omega) (by omega)⟩

/-- The machine's value is the one that the draw stands for. -/
theorem toInt_value (a b : Int32) (draw : UInt64) : (value a b draw).toInt = between a.toInt b.toInt draw := by
  have h := exact a b draw
  have hdivisor : (count a b).toUInt64.toNat = (max a.toInt b.toInt - min a.toInt b.toInt + 1).toNat := by
    rw [← h.low_eq, ← h.high_eq, ← h.distance_eq, ← h.count_eq, ← h.divisor_eq, Int.toNat_natCast]
  rw [h.value_eq, h.sum_eq, h.offset_eq, h.low_eq, offset, UInt64.toNat_mod, hdivisor]
  rfl

theorem value_bounds (a b : Int32) (draw : UInt64) :
    min a.toInt b.toInt ≤ (value a b draw).toInt ∧ (value a b draw).toInt ≤ max a.toInt b.toInt := by
  rw [toInt_value]
  exact between_bounds a.toInt b.toInt draw

/-- **Every word between the bounds is drawn.** -/
theorem exists_value {word : Int32} (hlow : min a.toInt b.toInt ≤ word.toInt) (hhigh : word.toInt ≤ max a.toInt b.toInt) :
    ∃ draw, value a b draw = word := by
  have hcounted : max a.toInt b.toInt - min a.toInt b.toInt < 2 ^ 64 := by
    have := a.le_toInt
    have := a.toInt_lt
    have := b.le_toInt
    have := b.toInt_lt
    omega
  obtain ⟨draw, hdraw⟩ := exists_draw hcounted hlow hhigh
  exact ⟨draw, Int32.toInt_inj.mp ((toInt_value a b draw).trans hdraw)⟩

/-- The index that a raw draw stands for, as a degree. -/
def place (length draw : UInt64) : Int32 := (draw % length).toInt64.toInt32

/-- An index is the same as a degree, unless there are more places than degrees. -/
theorem toInt_place {length : UInt64} (hpos : 0 < length.toNat) (hcounted : length.toNat ≤ 2 ^ 31) (draw : UInt64) :
    (place length draw).toInt = (draw.toNat % length.toNat : Nat) := by
  have hlt : (draw % length).toNat < length.toNat := by
    rw [UInt64.toNat_mod]
    exact Nat.mod_lt _ hpos
  have hsigned := @toInt_toInt64_of_lt (draw % length) (by omega)
  rw [place, toInt_toInt32_of_bounds (by omega) (by omega), hsigned, UInt64.toNat_mod]

end Words

end NumberedMelody.Random
