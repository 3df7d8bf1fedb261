/-
  NumberedMelody/Proofs/Random/Tape.lean
  ======================================
  **A tape stands for the source around it.**  A tape keeps the draws that it
  hands on, and plays them again once it is rewound.  Whatever it has played
  and however often, it hands out the draws that the source around it would
  give if it were asked directly (`StandsFor.draw`).

  The statement is about one tape over any source, which may hold tapes of its
  own, recording or playing.  Tapes further in ask the tape only when they have
  run out themselves (`draw_within_of_blocked`, `draw_within_of_open`).
-/
import NumberedMelody.Random.Source

namespace NumberedMelody.Random

/-! ### Direct draws -/

namespace Source

/-- The source after so many draws. -/
def skip (s : Source) : Nat → Source
  | 0 => s
  | n + 1 => (s.skip n).draw.2

/-- The value of the draw that follows so many others. -/
def nth (s : Source) (n : Nat) : UInt64 := (s.skip n).draw.1

/-- The values of the first draws. -/
def drawn (s : Source) (n : Nat) : List UInt64 := (List.range n).map s.nth

@[simp] theorem length_drawn (s : Source) (n : Nat) : (s.drawn n).length = n := by
  simp [drawn]

theorem drawn_succ (s : Source) (n : Nat) : s.drawn (n + 1) = s.drawn n ++ [s.nth n] := by
  simp [drawn, List.range_succ]

theorem getElem?_drawn (s : Source) {i n : Nat} (h : i < n) : (s.drawn n)[i]? = some (s.nth i) := by
  simp [drawn, h]

theorem draw_skip (s : Source) (n : Nat) : (s.skip n).draw = (s.nth n, s.skip (n + 1)) := rfl

/-- The source with more tapes further in. -/
def within (s : Source) (inner : List Tape) : Source := ⟨inner ++ s.tapes, s.generator⟩

/-- A draw through one more tape. -/
theorem draw_within_cons (s : Source) (tape : Tape) (inner : List Tape) :
    (s.within (tape :: inner)).draw =
      match tape.upcoming? with
      | some draw => (draw, s.within (tape.advance :: inner))
      | none => ((s.within inner).draw.1, ⟨tape.keep (s.within inner).draw.1 :: (s.within inner).draw.2.tapes,
          (s.within inner).draw.2.generator⟩) := by
  unfold draw within
  simp only [List.cons_append, drawThrough]
  cases tape.upcoming? <;> rfl

end Source

/-! ### One tape over a source -/

/-- A tape over the source `below` stands for `base` with `given` draws handed
    out since it was last rewound: it keeps the first draws of `base`, and
    `below` is what these draws leave of `base`. -/
structure Tape.StandsFor (base : Source) (tape : Tape) (below : Source) (given : Nat) : Prop where
  draws : tape.draws = base.drawn tape.draws.length
  below_eq : below = base.skip tape.draws.length
  given_le : given ≤ tape.draws.length
  position : tape.replaying = true → tape.position = given
  recording : tape.replaying = false → given = tape.draws.length

namespace Tape

variable {base below : Source} {tape : Tape} {given : Nat}

theorem StandsFor.blank (base : Source) : StandsFor base Tape.blank base 0 where
  draws := rfl
  below_eq := rfl
  given_le := Nat.le_refl _
  position := fun _ => rfl
  recording := fun _ => rfl

theorem StandsFor.rewound (h : StandsFor base tape below given) : StandsFor base tape.rewound below 0 where
  draws := h.draws
  below_eq := h.below_eq
  given_le := Nat.zero_le _
  position := fun _ => rfl
  recording := fun hplay => by simp [Tape.rewound] at hplay

theorem StandsFor.upcoming?_of_lt (h : StandsFor base tape below given) (hplay : tape.replaying = true)
    (hlt : given < tape.draws.length) : tape.upcoming? = some (base.nth given) := by
  have hget := base.getElem?_drawn hlt
  rw [← h.draws] at hget
  simp only [upcoming?, hplay, if_true, h.position hplay, hget]

/-- A tape with nothing to play has handed out all that it keeps. -/
theorem StandsFor.given_of_upcoming?_eq_none (h : StandsFor base tape below given)
    (hnone : tape.upcoming? = none) : given = tape.draws.length := by
  cases hplay : tape.replaying with
  | false => exact h.recording hplay
  | true =>
    by_cases hlt : given < tape.draws.length
    · rw [h.upcoming?_of_lt hplay hlt] at hnone
      exact absurd hnone (by simp)
    · exact Nat.le_antisymm h.given_le (Nat.le_of_not_lt hlt)

/-- **A draw from a tape is the next draw of the source it stands for.** -/
theorem StandsFor.draw (h : StandsFor base tape below given) :
    ∃ tape' below', (below.within [tape]).draw = (base.nth given, below'.within [tape']) ∧
      StandsFor base tape' below' (given + 1) ∧
      tape'.draws.length = max tape.draws.length (given + 1) := by
  cases hup : tape.upcoming? with
  | some draw =>
    -- the draw is kept already: the tape steps over it, and nothing below changes
    have hplay : tape.replaying = true := by
      cases hr : tape.replaying with
      | true => rfl
      | false => simp [upcoming?, hr] at hup
    have hlt : given < tape.draws.length := by
      rw [upcoming?, if_pos hplay, h.position hplay] at hup
      exact (List.getElem?_eq_some_iff.mp hup).1
    have hdraw : draw = base.nth given := by
      rw [h.upcoming?_of_lt hplay hlt] at hup
      exact (Option.some.inj hup).symm
    refine ⟨tape.advance, below, ?_, ?_, ?_⟩
    · simp only [Source.draw_within_cons, hup, hdraw]
    · exact ⟨h.draws, h.below_eq, hlt, fun _ => by simp [advance, h.position hplay],
        fun hr => absurd hplay (by simpa [advance] using hr)⟩
    · simp only [advance]
      omega
  | none =>
    -- the draw comes from below, and the tape keeps it
    have hgiven := h.given_of_upcoming?_eq_none hup
    have hbelow : (below.within []).draw = (base.nth given, base.skip (given + 1)) := by
      rw [h.below_eq, hgiven]
      exact base.draw_skip _
    have hlength : (tape.keep (base.nth given)).draws.length = given + 1 := by
      simp [keep, hgiven]
    refine ⟨tape.keep (base.nth given), base.skip (given + 1), ?_, ?_, ?_⟩
    · simp only [Source.draw_within_cons, hup, hbelow]
      rfl
    · refine ⟨?_, by rw [hlength], Nat.le_of_eq hlength.symm, fun hplay => ?_, fun _ => hlength.symm⟩
      · rw [hlength, Source.drawn_succ, hgiven, ← h.draws]
        rfl
      · have hplay' : tape.replaying = true := hplay
        simp [keep, hplay', h.position hplay']
    · rw [hlength]
      omega

end Tape

/-! ### Tapes further in -/

/-- No tape of these has a kept draw to play, so a draw passes through all of them. -/
def allRunOut (inner : List Tape) : Bool := inner.all fun tape => tape.upcoming?.isNone

namespace Source

/-- A source with tapes over a tape over the source `below`. -/
def onTape (inner : List Tape) (tape : Tape) (below : Source) : Source :=
  (below.within [tape]).within inner

/-- A draw that an inner tape plays does not reach what is around it. -/
theorem draw_within_of_blocked {inner : List Tape} (h : allRunOut inner = false) :
    ∃ draw inner', inner'.length = inner.length ∧
      ∀ s : Source, (s.within inner).draw = (draw, s.within inner') := by
  induction inner with
  | nil => simp [allRunOut] at h
  | cons tape inner ih =>
    cases hup : tape.upcoming? with
    | some draw =>
      refine ⟨draw, tape.advance :: inner, rfl, ?_⟩
      intro s
      simp only [draw_within_cons, hup]
    | none =>
      have hinner : allRunOut inner = false := by simpa [allRunOut, hup] using h
      obtain ⟨draw, inner', hlength, hdraw⟩ := ih hinner
      refine ⟨draw, tape.keep draw :: inner', by simp [hlength], ?_⟩
      intro s
      simp only [draw_within_cons, hup, hdraw]
      rfl

/-- A draw that no inner tape plays is drawn from what is around them, and each
    of them keeps it. -/
theorem draw_within_of_open {inner : List Tape} (h : allRunOut inner = true) (s : Source) :
    (s.within inner).draw = (s.draw.1, s.draw.2.within (inner.map (·.keep s.draw.1))) := by
  induction inner with
  | nil => rfl
  | cons tape inner ih =>
    have hboth : tape.upcoming? = none ∧ allRunOut inner = true := by
      simpa [allRunOut] using h
    simp only [draw_within_cons, hboth.1, ih hboth.2, List.map_cons]
    rfl

end Source

end NumberedMelody.Random
