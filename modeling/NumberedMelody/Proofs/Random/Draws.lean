/-
  NumberedMelody/Proofs/Random/Draws.lean
  =======================================
  **What a source becomes.**  Tapes may be started, rewound and dropped in any
  order.  Once all of them are dropped again, what is left of the source is what
  some number of direct draws leaves of it (`Stacked`).  Every direct draw can
  be told from what it leaves (`taken_lt_taken_draw`), so a source that nothing
  more was taken from is the same source (`Stacked.eq_of_taken_eq`).
-/
import NumberedMelody.Proofs.Random.Tape

namespace NumberedMelody.Random

/-! ### How much was taken -/

/-- The draws that a tape keeps, and those that it has played since. -/
def Tape.taken (tape : Tape) : Nat := tape.draws.length + tape.position

/-- The draws taken from a stream, and all that went over the tapes inside it. -/
def takenThrough : List Tape → Generator → Nat
  | [], g => g.position
  | tape :: outer, g => tape.taken + takenThrough outer g

def Source.taken (s : Source) : Nat := takenThrough s.tapes s.generator

theorem takenThrough_lt_drawThrough (tapes : List Tape) (g : Generator) :
    takenThrough tapes g < takenThrough (drawThrough tapes g).2.1 (drawThrough tapes g).2.2 := by
  induction tapes with
  | nil => exact Nat.lt_succ_self g.position
  | cons tape outer ih =>
    cases hup : tape.upcoming? with
    | some draw =>
      have hadvance : tape.advance.taken = tape.taken + 1 := rfl
      simp only [drawThrough, hup, takenThrough, hadvance]
      omega
    | none =>
      rcases hout : drawThrough outer g with ⟨draw, outer', g'⟩
      have hkeep : tape.taken < (tape.keep draw).taken := by
        simp only [Tape.taken, Tape.keep, List.length_append, List.length_singleton]
        split <;> omega
      simp only [hout] at ih
      simp only [drawThrough, hup, hout, takenThrough]
      omega

namespace Source

theorem taken_lt_taken_draw (s : Source) : s.taken < s.draw.2.taken :=
  takenThrough_lt_drawThrough s.tapes s.generator

theorem add_taken_le_taken_skip (s : Source) (n : Nat) : s.taken + n ≤ (s.skip n).taken := by
  induction n with
  | zero => exact Nat.le_refl _
  | succ n ih =>
    have hdraw : (s.skip n).taken < (s.skip (n + 1)).taken := (s.skip n).taken_lt_taken_draw
    omega

theorem skip_eq_self_of_taken_eq {s : Source} {n : Nat} (h : (s.skip n).taken = s.taken) : s.skip n = s := by
  have hle := s.add_taken_le_taken_skip n
  have hzero : n = 0 := by omega
  rw [hzero]
  rfl

/-! ### Tapes over tapes -/

/-- The source `s` holds `n` tapes, one inside the other, over what some direct
    draws leave of `base`: each tape stands for the source around it. -/
inductive Stacked (base : Source) : Nat → Source → Prop where
  | skip (count : Nat) : Stacked base 0 (base.skip count)
  | tape {n given : Nat} {around below : Source} {tape : Tape} (outside : Stacked base n around)
      (stands : tape.StandsFor around below given) : Stacked base (n + 1) (below.within [tape])

variable {base s : Source} {n : Nat}

theorem Stacked.start (base : Source) : Stacked base 0 base := .skip 0

theorem Stacked.draw (h : Stacked base n s) : Stacked base n s.draw.2 := by
  cases h with
  | skip count => exact .skip (count + 1)
  | tape outside stands =>
    obtain ⟨tape', below', hdraw, stands', -⟩ := stands.draw
    rw [hdraw]
    exact .tape outside stands'

theorem Stacked.skip_more (h : Stacked base n s) (count : Nat) : Stacked base n (s.skip count) := by
  induction count with
  | zero => exact h
  | succ count ih => exact ih.draw

theorem Stacked.record (h : Stacked base n s) : Stacked base (n + 1) s.record :=
  .tape h (.blank s)

theorem Stacked.rewind (h : Stacked base (n + 1) s) : Stacked base (n + 1) s.rewind := by
  cases h with
  | tape outside stands => exact .tape outside stands.rewound

/-- A tape that is dropped leaves the source around it without the draws that it
    has kept. -/
theorem Stacked.finish (h : Stacked base (n + 1) s) : Stacked base n s.finish := by
  cases h with
  | tape outside stands =>
    obtain rfl := stands.below_eq
    exact outside.skip_more _

theorem Stacked.exists_skip (h : Stacked base 0 s) : ∃ count, s = base.skip count := by
  cases h with
  | skip count => exact ⟨count, rfl⟩

/-- **Nothing is lost on tapes.**  A source from which nothing more was taken,
    once all tapes are dropped again, is the source at the start. -/
theorem Stacked.eq_of_taken_eq (h : Stacked base 0 s) (htaken : s.taken = base.taken) : s = base := by
  obtain ⟨count, rfl⟩ := h.exists_skip
  exact skip_eq_self_of_taken_eq htaken

end Source

end NumberedMelody.Random
