/-
  NumberedMelody/Proofs/Melody/Stand.lean
  =======================================
  **When an endless loop reads its cycles in order.**  A loop asks for one
  index after another and finds the cycle of an index by dividing through the
  length of the cycle it holds.  Cycles may differ in length, so which
  evaluation an index is read from, and at which place, depends on the lengths
  alone; `Stand` follows both along a loop.

  Read one after another in full, the evaluations would be met at the places
  that `firstIndex` counts.  The loop keeps to them exactly if every cycle is
  as long as the one before it or a single event long
  (`inOrderAt_iff_lengths`).
-/

namespace NumberedMelody

/-! ### Where a loop stands -/

/-- The evaluation that a loop reads from, and the number that the cycle of
    this evaluation has got. -/
structure Stand where
  evaluation : Nat
  cycle : Nat

namespace Stand

variable (lengths : Nat → Nat)

/-- Where the loop stands once it has asked for an index.  The number of the
    cycle is reckoned by the length of the cycle that is held. -/
def turn (index : Nat) (s : Stand) : Stand :=
  let cycle := index / lengths s.evaluation
  if cycle = s.cycle then s else ⟨s.evaluation + 1, cycle⟩

/-- Where a loop stands when it hands out the item of an index. -/
def atIndex : Nat → Stand
  | 0 => ⟨0, 0⟩
  | index + 1 => (atIndex index).turn lengths (index + 1)

/-- The index that a cycle starts at if all cycles before it are read in full. -/
def firstIndex : Nat → Nat
  | 0 => 0
  | c + 1 => firstIndex c + lengths c

/-- The item of an index is the one that reading cycle after cycle in full
    comes to: none has been skipped, repeated or moved. -/
def InOrderAt (index : Nat) : Prop :=
  firstIndex lengths (atIndex lengths index).evaluation + index % lengths (atIndex lengths index).evaluation = index

theorem turn_of_eq {index : Nat} {s : Stand} (h : index / lengths s.evaluation = s.cycle) :
    s.turn lengths index = s := by
  simp only [turn, if_pos h]

theorem turn_of_ne {index : Nat} {s : Stand} (h : index / lengths s.evaluation ≠ s.cycle) :
    s.turn lengths index = ⟨s.evaluation + 1, index / lengths s.evaluation⟩ := by
  simp only [turn, if_neg h]

theorem firstIndex_mono {c d : Nat} (h : c ≤ d) : firstIndex lengths c ≤ firstIndex lengths d := by
  induction d with
  | zero =>
    have hc : c = 0 := by omega
    exact Nat.le_of_eq (congrArg _ hc)
  | succ d ih =>
    by_cases hcd : c ≤ d
    · exact Nat.le_trans (ih hcd) (Nat.le_add_right _ _)
    · have hc : c = d + 1 := by omega
      exact Nat.le_of_eq (congrArg _ hc)

/-- An index lies in one cycle only. -/
theorem cycle_unique {c d index : Nat} (hc : firstIndex lengths c ≤ index)
    (hc' : index < firstIndex lengths (c + 1)) (hd : firstIndex lengths d ≤ index)
    (hd' : index < firstIndex lengths (d + 1)) : c = d := by
  rcases Nat.lt_trichotomy c d with h | h | h
  · have := firstIndex_mono lengths (show c + 1 ≤ d from h)
    omega
  · exact h
  · have := firstIndex_mono lengths (show d + 1 ≤ c from h)
    omega

/-! ### In order under the condition on lengths -/

/-- What a loop that keeps to the order maintains: the index lies in the cycle
    that is read, this cycle starts at a multiple of its length, and its number
    is the quotient.  After a drop to cycles of one event the number may lag
    behind, but then every index turns to the next cycle anyway. -/
structure Settled (index : Nat) (s : Stand) : Prop where
  first_le : firstIndex lengths s.evaluation ≤ index
  lt_next : index < firstIndex lengths (s.evaluation + 1)
  dvd_first : lengths s.evaluation ∣ firstIndex lengths s.evaluation
  cycle_le : s.cycle ≤ index / lengths s.evaluation
  cycle_eq : lengths s.evaluation ≠ 1 → s.cycle = index / lengths s.evaluation

variable {lengths}

theorem Settled.start (hpos : 0 < lengths 0) : Settled lengths 0 ⟨0, 0⟩ where
  first_le := Nat.le_refl _
  lt_next := by simpa [firstIndex] using hpos
  dvd_first := Nat.dvd_zero _
  cycle_le := Nat.zero_le _
  cycle_eq := fun _ => (Nat.zero_div _).symm

theorem Settled.in_order {index : Nat} {s : Stand} (h : Settled lengths index s) :
    firstIndex lengths s.evaluation + index % lengths s.evaluation = index := by
  obtain ⟨k, hk⟩ := h.dvd_first
  have hlt := h.lt_next
  have hle := h.first_le
  simp only [firstIndex] at hlt
  obtain ⟨j, hj⟩ := Nat.exists_eq_add_of_le hle
  have hj' : j < lengths s.evaluation := by omega
  rw [hj, hk, Nat.mul_add_mod, Nat.mod_eq_of_lt hj']

theorem Settled.next (hpos : ∀ c, 0 < lengths c)
    (hlen : ∀ c, lengths (c + 1) = lengths c ∨ lengths (c + 1) = 1) {index : Nat} {s : Stand}
    (h : Settled lengths index s) : Settled lengths (index + 1) (s.turn lengths (index + 1)) := by
  obtain ⟨k, hk⟩ := h.dvd_first
  have hlt := h.lt_next
  simp only [firstIndex] at hlt
  obtain ⟨j, hj⟩ := Nat.exists_eq_add_of_le h.first_le
  have hp := hpos s.evaluation
  have hquot : index / lengths s.evaluation = k := by
    rw [hj, hk, Nat.mul_add_div hp, Nat.div_eq_of_lt (by omega), Nat.add_zero]
  by_cases hin : j + 1 < lengths s.evaluation
  · -- the next index lies in the cycle that is read
    have hquot' : (index + 1) / lengths s.evaluation = k := by
      rw [hj, hk, Nat.add_assoc, Nat.mul_add_div hp, Nat.div_eq_of_lt hin, Nat.add_zero]
    have hcycle : s.cycle = k := (h.cycle_eq (by omega)).trans hquot
    rw [turn_of_eq lengths (hquot'.trans hcycle.symm)]
    exact ⟨by omega, by simp only [firstIndex]; omega, h.dvd_first, by omega, fun _ => by omega⟩
  · -- the next index opens the next cycle
    have hnext : index + 1 = firstIndex lengths (s.evaluation + 1) := by
      simp only [firstIndex]
      omega
    have hmul : index + 1 = lengths s.evaluation * (k + 1) := by
      rw [hnext, Nat.mul_add, Nat.mul_one, ← hk]
      rfl
    have hquot' : (index + 1) / lengths s.evaluation = k + 1 := by
      rw [hmul, Nat.mul_div_cancel_left _ hp]
    have hcycle := h.cycle_le
    rw [turn_of_ne lengths (by omega), hquot']
    have hp' := hpos (s.evaluation + 1)
    have hlt' : index + 1 < firstIndex lengths (s.evaluation + 2) := by
      rw [hnext]
      exact Nat.lt_add_of_pos_right hp'
    rcases hlen s.evaluation with hsame | hone
    · refine ⟨Nat.le_of_eq hnext.symm, hlt', ?_, ?_, fun _ => ?_⟩
      · show lengths (s.evaluation + 1) ∣ firstIndex lengths (s.evaluation + 1)
        rw [hsame, ← hnext, hmul]
        exact Nat.dvd_mul_right _ _
      · show k + 1 ≤ (index + 1) / lengths (s.evaluation + 1)
        exact Nat.le_of_eq (by rw [hsame, hquot'])
      · show k + 1 = (index + 1) / lengths (s.evaluation + 1)
        rw [hsame, hquot']
    · refine ⟨Nat.le_of_eq hnext.symm, hlt', ?_, ?_, fun hne => absurd hone hne⟩
      · show lengths (s.evaluation + 1) ∣ firstIndex lengths (s.evaluation + 1)
        rw [hone]
        exact Nat.one_dvd _
      · show k + 1 ≤ (index + 1) / lengths (s.evaluation + 1)
        rw [hone, Nat.div_one, ← hquot']
        exact Nat.div_le_self _ _

theorem settled_atIndex (hpos : ∀ c, 0 < lengths c)
    (hlen : ∀ c, lengths (c + 1) = lengths c ∨ lengths (c + 1) = 1) (index : Nat) :
    Settled lengths index (atIndex lengths index) := by
  induction index with
  | zero => exact .start (hpos 0)
  | succ index ih => exact ih.next hpos hlen

/-! ### The condition is needed -/

theorem evaluation_of_inOrderAt (hpos : ∀ c, 0 < lengths c) {index c : Nat} (h : InOrderAt lengths index)
    (hle : firstIndex lengths c ≤ index) (hlt : index < firstIndex lengths (c + 1)) :
    (atIndex lengths index).evaluation = c := by
  have hmod := Nat.mod_lt index (hpos (atIndex lengths index).evaluation)
  unfold InOrderAt at h
  refine cycle_unique lengths (by omega) ?_ hle hlt
  simp only [firstIndex]
  omega

/-- A loop that keeps to the order reads each cycle from its start, so the
    place of a first event is a multiple of the length. -/
theorem dvd_firstIndex (hpos : ∀ c, 0 < lengths c) (h : ∀ index, InOrderAt lengths index) (c : Nat) :
    lengths c ∣ firstIndex lengths c := by
  have hlt : firstIndex lengths c < firstIndex lengths (c + 1) := Nat.lt_add_of_pos_right (hpos c)
  have hat := h (firstIndex lengths c)
  have hev := evaluation_of_inOrderAt hpos hat (Nat.le_refl _) hlt
  unfold InOrderAt at hat
  rw [hev] at hat
  exact Nat.dvd_of_mod_eq_zero (by omega)

theorem lengths_of_inOrder (hpos : ∀ c, 0 < lengths c) (h : ∀ index, InOrderAt lengths index) (c : Nat) :
    lengths (c + 1) = lengths c ∨ lengths (c + 1) = 1 := by
  by_cases hone : lengths (c + 1) = 1
  · exact Or.inr hone
  left
  -- `last` is the last index of cycle `c`; the two indices after it lie in cycle `c + 1`
  have hp := hpos c
  have hp' := hpos (c + 1)
  obtain ⟨last, hlast⟩ : ∃ last, firstIndex lengths (c + 1) = last + 1 :=
    ⟨firstIndex lengths c + lengths c - 1, by simp only [firstIndex]; omega⟩
  have hfirst : firstIndex lengths (c + 1) = firstIndex lengths c + lengths c := rfl
  have hsecond : firstIndex lengths (c + 1 + 1) = firstIndex lengths (c + 1) + lengths (c + 1) := rfl
  have hev := evaluation_of_inOrderAt hpos (h last) (c := c) (by omega) (by omega)
  have hev' := evaluation_of_inOrderAt hpos (h (last + 1)) (c := c + 1) (by omega) (by omega)
  have hev'' := evaluation_of_inOrderAt hpos (h (last + 2)) (c := c + 1) (by omega) (by omega)
  -- the loop turned at `last + 1`, so there the number is reckoned by the length of cycle `c`
  have hturn : (atIndex lengths (last + 1)).cycle = (last + 1) / lengths c := by
    have hstep : atIndex lengths (last + 1) = (atIndex lengths last).turn lengths (last + 1) := rfl
    by_cases hq : (last + 1) / lengths (atIndex lengths last).evaluation = (atIndex lengths last).cycle
    · rw [hstep, turn_of_eq lengths hq] at hev'
      omega
    · rw [hstep, turn_of_ne lengths hq, hev]
  -- it did not turn at `last + 2`, so the number is the quotient by the length of cycle `c + 1`
  have hstay : (last + 2) / lengths (c + 1) = (last + 1) / lengths c := by
    have hstep : atIndex lengths (last + 2) = (atIndex lengths (last + 1)).turn lengths (last + 2) := rfl
    by_cases hq : (last + 2) / lengths (atIndex lengths (last + 1)).evaluation = (atIndex lengths (last + 1)).cycle
    · rw [← hturn, ← hq, hev']
    · rw [hstep, turn_of_ne lengths hq] at hev''
      simp only [] at hev''
      omega
  obtain ⟨k, hk⟩ := dvd_firstIndex hpos h (c + 1)
  have hdvd : lengths c ∣ firstIndex lengths (c + 1) := by
    rw [hfirst]
    exact Nat.dvd_add (dvd_firstIndex hpos h c) (Nat.dvd_refl _)
  obtain ⟨k', hk'⟩ := hdvd
  have hq : (last + 2) / lengths (c + 1) = k := by
    rw [show last + 2 = lengths (c + 1) * k + 1 by omega, Nat.mul_add_div hp',
      Nat.div_eq_of_lt (by omega), Nat.add_zero]
  have hq' : (last + 1) / lengths c = k' := by
    rw [← hlast, hk', Nat.mul_div_cancel_left _ hp]
  have hkk : k = k' := by omega
  have hkpos : 0 < k := by
    rcases Nat.eq_zero_or_pos k with hz | hz
    · rw [hz] at hk
      omega
    · exact hz
  rw [← hkk] at hk'
  exact Nat.eq_of_mul_eq_mul_right hkpos (hk.symm.trans hk')

/-- **A loop reads its cycles in order exactly if every cycle is as long as the
    one before it or a single event long.** -/
theorem inOrderAt_iff_lengths (hpos : ∀ c, 0 < lengths c) :
    (∀ index, InOrderAt lengths index) ↔ ∀ c, lengths (c + 1) = lengths c ∨ lengths (c + 1) = 1 := by
  constructor
  · exact lengths_of_inOrder hpos
  · intro hlen index
    exact (settled_atIndex hpos hlen index).in_order

end Stand

end NumberedMelody
