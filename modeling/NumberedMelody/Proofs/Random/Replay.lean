/-
  NumberedMelody/Proofs/Random/Replay.lean
  ========================================
  **Passes over one tape.**  A tape is started, passes are run with the tape
  rewound before every pass but the first, and the tape is dropped.  A pass
  draws, and starts, rewinds and drops tapes of its own, in any order that
  leaves the tape of the passes in place.

  Every pass receives from the tape the draws that the source would have given
  to direct draws, from the first on; and what is left is the source after as
  many direct draws as the longest of the passes took
  (`taped_passes_transparent`).
-/
import NumberedMelody.Proofs.Random.Tape

namespace NumberedMelody.Random

/-! ### Moves and passes -/

/-- What can be done to a source. -/
inductive Move where
  | draw
  | record
  | rewind
  | finish
  deriving Repr, DecidableEq

/-- The moves never touch a tape further out than `depth`, and drop all tapes
    that they start. -/
def balanced : Nat → List Move → Bool
  | depth, [] => depth = 0
  | depth, .draw :: more => balanced depth more
  | depth, .record :: more => balanced (depth + 1) more
  | 0, .rewind :: _ => false
  | depth + 1, .rewind :: more => balanced (depth + 1) more
  | 0, .finish :: _ => false
  | depth + 1, .finish :: more => balanced depth more

/-- The moves of one pass, which leave the tapes around it in place. -/
structure Pass where
  moves : List Move
  isBalanced : balanced 0 moves = true

namespace Source

/-- A move made on a source. -/
def move (s : Source) : Move → Source
  | .draw => s.draw.2
  | .record => s.record
  | .rewind => s.rewind
  | .finish => s.finish

/-- Moves made on a source, one after another. -/
def moves (s : Source) (all : List Move) : Source := all.foldl move s

/-- The raw draws that some moves receive from below the innermost `depth`
    tapes: the draws that these tapes do not play themselves. -/
def received (s : Source) (depth : Nat) : List Move → List UInt64
  | [] => []
  | .draw :: more =>
    if allRunOut (s.tapes.take depth) then s.draw.1 :: received s.draw.2 depth more
    else received s.draw.2 depth more
  | .record :: more => received s.record (depth + 1) more
  | .rewind :: more => received s.rewind depth more
  | .finish :: more => received s.finish (depth - 1) more

/-- Passes with the innermost tape rewound before each: what each of them
    receives from this tape, and what they leave. -/
def rewoundPasses (s : Source) : List Pass → List (List UInt64) × Source
  | [] => ([], s)
  | pass :: more =>
    let others := rewoundPasses (s.rewind.moves pass.moves) more
    (s.rewind.received 0 pass.moves :: others.1, others.2)

/-- Passes over a tape of their own: what each of them receives from the tape,
    and what is left once the tape is dropped. -/
def tapedPasses (s : Source) (first : Pass) (more : List Pass) : List (List UInt64) × Source :=
  let others := (s.record.moves first.moves).rewoundPasses more
  (s.record.received 0 first.moves :: others.1, others.2.finish)

end Source

/-! ### One pass -/

variable {base : Source}

/-- Moves over a tape that stands for a source receive the next draws of that
    source.  The induction is on the moves, with the tapes that they have
    started so far. -/
theorem moves_over (all : List Move) :
    ∀ (inner : List Tape) (tape : Tape) (below : Source) (given : Nat),
      balanced inner.length all = true → tape.StandsFor base below given →
      ∃ (n : Nat) (tape' : Tape) (below' : Source),
        (Source.onTape inner tape below).moves all = Source.onTape [] tape' below' ∧
        (Source.onTape inner tape below).received inner.length all = (List.range' given n).map base.nth ∧
        tape'.StandsFor base below' (given + n) ∧
        tape'.draws.length = max tape.draws.length (given + n) := by
  induction all with
  | nil =>
    intro inner tape below given hbalanced h
    have hinner : inner = [] := by simpa [balanced] using hbalanced
    subst hinner
    refine ⟨0, tape, below, rfl, rfl, h, ?_⟩
    have := h.given_le
    omega
  | cons first more ih =>
    intro inner tape below given hbalanced h
    cases first with
    | draw =>
      have htake : (Source.onTape inner tape below).tapes.take inner.length = inner := by
        simp [Source.onTape, Source.within]
      cases hopen : allRunOut inner with
      | false =>
        -- an inner tape plays: nothing reaches the tape of the passes
        obtain ⟨draw, inner', hlength, hdraw⟩ := Source.draw_within_of_blocked hopen
        have hnext : (Source.onTape inner tape below).draw = (draw, Source.onTape inner' tape below) :=
          hdraw _
        obtain ⟨n, tape', below', hmoves, hreceived, h', hmax⟩ :=
          ih inner' tape below given (by rw [hlength]; exact hbalanced) h
        refine ⟨n, tape', below', ?_, ?_, h', hmax⟩
        · simpa only [Source.moves, List.foldl_cons, Source.move, hnext] using hmoves
        · rw [hlength] at hreceived
          simp only [Source.received, htake, hopen, hnext]
          exact hreceived
      | true =>
        -- the draw reaches the tape, which hands out the next draw of `base`
        obtain ⟨tape₁, below₁, hdraw, h₁, hlength₁⟩ := h.draw
        have hnext : (Source.onTape inner tape below).draw =
            (base.nth given, Source.onTape (inner.map (·.keep (base.nth given))) tape₁ below₁) := by
          simp only [Source.onTape, Source.draw_within_of_open hopen, hdraw]
        obtain ⟨n, tape', below', hmoves, hreceived, h', hmax⟩ :=
          ih (inner.map (·.keep (base.nth given))) tape₁ below₁ (given + 1)
            (by rw [List.length_map]; exact hbalanced) h₁
        refine ⟨n + 1, tape', below', ?_, ?_, ?_, ?_⟩
        · simpa only [Source.moves, List.foldl_cons, Source.move, hnext] using hmoves
        · rw [List.length_map] at hreceived
          simp only [Source.received, htake, hopen, hnext, if_true, List.range'_succ, List.map_cons]
          rw [hreceived]
        · rw [show given + (n + 1) = given + 1 + n by omega]
          exact h'
        · omega
    | record =>
      exact ih (Tape.blank :: inner) tape below given hbalanced h
    | rewind =>
      cases inner with
      | nil => simp [balanced] at hbalanced
      | cons top inner => exact ih (top.rewound :: inner) tape below given hbalanced h
    | finish =>
      cases inner with
      | nil => simp [balanced] at hbalanced
      | cons top inner => exact ih inner tape below given hbalanced h

/-- One pass over a tape from which nothing has been handed out yet. -/
theorem pass_over {tape : Tape} {below : Source} (pass : Pass) (h : tape.StandsFor base below 0) :
    ∃ (tape' : Tape) (below' : Source),
      (Source.onTape [] tape below).moves pass.moves = Source.onTape [] tape' below' ∧
      (Source.onTape [] tape below).received 0 pass.moves =
        base.drawn ((Source.onTape [] tape below).received 0 pass.moves).length ∧
      tape'.StandsFor base below' ((Source.onTape [] tape below).received 0 pass.moves).length ∧
      tape'.draws.length =
        max tape.draws.length ((Source.onTape [] tape below).received 0 pass.moves).length := by
  obtain ⟨n, tape', below', hmoves, hreceived, h', hmax⟩ :=
    moves_over pass.moves [] tape below 0 pass.isBalanced h
  have hlength : ((Source.onTape [] tape below).received 0 pass.moves).length = n := by
    have := congrArg List.length hreceived
    simpa using this
  rw [Nat.zero_add] at h' hmax
  rw [hlength]
  refine ⟨tape', below', hmoves, ?_, h', hmax⟩
  rw [Source.drawn, List.range_eq_range']
  exact hreceived

/-! ### All passes -/

/-- The most draws that any of some passes received. -/
def mostReceived (all : List (List UInt64)) : Nat := (all.map List.length).foldr max 0

theorem length_rewoundPasses (all : List Pass) :
    ∀ s : Source, (s.rewoundPasses all).1.length = all.length := by
  induction all with
  | nil =>
    intro s
    rfl
  | cons pass more ih =>
    intro s
    simp only [Source.rewoundPasses, List.length_cons, ih]

theorem rewoundPasses_over (all : List Pass) :
    ∀ (tape : Tape) (below : Source) (given : Nat), tape.StandsFor base below given →
      (∀ draws ∈ ((Source.onTape [] tape below).rewoundPasses all).1, draws = base.drawn draws.length) ∧
      ((Source.onTape [] tape below).rewoundPasses all).2.finish =
        base.skip (max tape.draws.length (mostReceived ((Source.onTape [] tape below).rewoundPasses all).1)) := by
  induction all with
  | nil =>
    intro tape below given h
    refine ⟨by simp [Source.rewoundPasses], ?_⟩
    simp only [Source.rewoundPasses, mostReceived, List.map_nil, List.foldr_nil, Nat.max_zero]
    exact h.below_eq
  | cons pass more ih =>
    intro tape below given h
    have hrewind : (Source.onTape [] tape below).rewind = Source.onTape [] tape.rewound below := rfl
    obtain ⟨tape', below', hmoves, hreceived, h', hmax⟩ := pass_over pass h.rewound
    obtain ⟨hothers, hleft⟩ := ih tape' below' _ h'
    simp only [Source.rewoundPasses, hrewind, hmoves]
    refine ⟨?_, ?_⟩
    · intro draws hdraws
      rcases List.mem_cons.mp hdraws with rfl | hmem
      · exact hreceived
      · exact hothers draws hmem
    · have hkept : tape.rewound.draws = tape.draws := rfl
      rw [hleft, hmax, hkept, Nat.max_assoc]
      rfl

/-- **Passes over one tape share the draws of the source around it.**  Whatever
    tapes the source holds already, each of the passes receives its first draws
    exactly as direct draws would give them, and once the tape is dropped the
    source is as after the most direct draws that one of the passes received. -/
theorem taped_passes_transparent (s : Source) (first : Pass) (more : List Pass) :
    (∀ draws ∈ (s.tapedPasses first more).1, ∀ i, i < draws.length → draws[i]? = some (s.nth i)) ∧
      (s.tapedPasses first more).1.length = more.length + 1 ∧
      (s.tapedPasses first more).2 = s.skip (mostReceived (s.tapedPasses first more).1) := by
  have hrecord : s.record = Source.onTape [] Tape.blank s := rfl
  obtain ⟨tape', below', hmoves, hreceived, h', hmax⟩ := pass_over first (Tape.StandsFor.blank s)
  obtain ⟨hothers, hleft⟩ := rewoundPasses_over more tape' below' _ h'
  have hall : ∀ draws ∈ (s.tapedPasses first more).1, draws = s.drawn draws.length := by
    intro draws hdraws
    simp only [Source.tapedPasses, hrecord, hmoves] at hdraws
    rcases List.mem_cons.mp hdraws with rfl | hmem
    · exact hreceived
    · exact hothers draws hmem
  refine ⟨?_, ?_, ?_⟩
  · intro draws hdraws i hi
    have hget := s.getElem?_drawn hi
    rwa [← hall draws hdraws] at hget
  · simp only [Source.tapedPasses, List.length_cons, length_rewoundPasses]
  · have hblank : Tape.blank.draws.length = 0 := rfl
    simp only [Source.tapedPasses, hrecord, hmoves]
    rw [hleft, hmax, hblank, Nat.zero_max]
    rfl

/-- Two passes over a tape inside one that is being played back: the second
    draw of a pass that has a tape of its own is the second direct draw. -/
theorem taped_passes_transparent_nested :
    let s := (Source.ofSeed 9).record.draw.2.draw.2.rewind.draw.2
    let first : Pass := ⟨[.draw, .record, .draw, .rewind, .draw, .finish], rfl⟩
    let second : Pass := ⟨[.draw, .draw, .draw], rfl⟩
    ∃ draws ∈ (s.tapedPasses first [second]).1, 1 < draws.length ∧ draws[1]? = some (s.nth 1) := by
  intro s first second
  have hmem : s.record.received 0 first.moves ∈ (s.tapedPasses first [second]).1 := List.mem_cons_self ..
  have hlength : 1 < (s.record.received 0 first.moves).length := by decide
  exact ⟨_, hmem, hlength, (taped_passes_transparent s first [second]).1 _ hmem 1 hlength⟩

end NumberedMelody.Random
