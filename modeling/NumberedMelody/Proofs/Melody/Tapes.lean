/-
  NumberedMelody/Proofs/Melody/Tapes.lean
  =======================================
  **No tape is left behind.**  A repeat starts a tape and drops it again,
  whether its body yields something or fails, and whatever is nested in it.  So
  a run hands back as many tapes as it was given; the tapes around it may have
  kept more draws and played some, and that is all.  Between two requests to a
  melody there are no tapes, and the draws of every later cycle are read off the
  stream, each once (`tapes_never_leak`).
-/
import NumberedMelody.Proofs.Evaluation.BarLines
import NumberedMelody.Proofs.Melody.History

namespace NumberedMelody

namespace Random

/-! ### A stack of tapes around a run -/

/-- A tape later on: it has lost none of its draws, and it records or plays as before. -/
structure Tape.Continues (tape later : Tape) : Prop where
  draws : tape.draws <+: later.draws
  replaying : later.replaying = tape.replaying

namespace Tape

theorem Continues.refl (tape : Tape) : tape.Continues tape := ⟨List.prefix_refl _, rfl⟩

theorem Continues.trans {tape later last : Tape} (h : tape.Continues later) (hlast : later.Continues last) :
    tape.Continues last := by
  constructor
  · exact h.draws.trans hlast.draws
  · exact hlast.replaying.trans h.replaying

theorem continues_advance (tape : Tape) : tape.Continues tape.advance := ⟨List.prefix_refl _, rfl⟩

theorem continues_keep (tape : Tape) (draw : UInt64) : tape.Continues (tape.keep draw) :=
  ⟨List.prefix_append _ _, rfl⟩

end Tape

theorem continues_trans {tapes later last : List Tape} (h : List.Forall₂ Tape.Continues tapes later)
    (hlast : List.Forall₂ Tape.Continues later last) : List.Forall₂ Tape.Continues tapes last := by
  induction h generalizing last with
  | nil => exact hlast
  | cons hfirst _ ih =>
    cases hlast with
    | cons hnext hrest => exact .cons (hfirst.trans hnext) (ih hrest)

/-- The same tapes later on. -/
def Source.Encloses (s later : Source) : Prop := List.Forall₂ Tape.Continues s.tapes later.tapes

theorem drawThrough_continues (tapes : List Tape) (g : Generator) :
    List.Forall₂ Tape.Continues tapes (drawThrough tapes g).2.1 := by
  induction tapes with
  | nil => exact .nil
  | cons tape outer ih =>
    cases hup : tape.upcoming? with
    | some draw =>
      -- a draw that is played does not reach the tapes around
      simp only [drawThrough, hup]
      exact .cons tape.continues_advance (List.forall₂_same.mpr fun tape _ => .refl tape)
    | none =>
      simp only [drawThrough, hup]
      exact .cons (tape.continues_keep _) ih

namespace Source

variable {s later last : Source}

theorem Encloses.refl (s : Source) : s.Encloses s := List.forall₂_same.mpr fun tape _ => .refl tape

theorem Encloses.trans (h : s.Encloses later) (hlast : later.Encloses last) : s.Encloses last :=
  continues_trans h hlast

theorem Encloses.length_eq (h : s.Encloses later) : later.tapes.length = s.tapes.length :=
  (List.Forall₂.length_eq h).symm

theorem Encloses.tapes_eq_nil (h : s.Encloses later) (hs : s.tapes = []) : later.tapes = [] := by
  apply List.eq_nil_of_length_eq_zero
  rw [h.length_eq, hs, List.length_nil]

theorem encloses_skip (s : Source) (count : Nat) : s.Encloses (s.skip count) := by
  induction count with
  | zero => exact .refl s
  | succ count ih => exact ih.trans (drawThrough_continues _ _)

theorem Stacked.encloses (h : Stacked s 0 later) : s.Encloses later := by
  obtain ⟨count, rfl⟩ := h.exists_skip
  exact s.encloses_skip count

theorem Stacked.trans {n : Nat} (h : Stacked s n later) (hlast : Stacked later 0 last) : Stacked s n last := by
  obtain ⟨count, rfl⟩ := hlast.exists_skip
  exact h.skip_more count

end Source

/-- The stream after so many more draws. -/
def Generator.onward (g : Generator) (count : Nat) : Generator := { g with position := g.position + count }

/-- Without tapes, every draw is the next of the stream. -/
theorem Source.skip_eq_onward {s : Source} (hs : s.tapes = []) (count : Nat) :
    s.skip count = ⟨[], s.generator.onward count⟩ := by
  induction count with
  | zero =>
    rcases s with ⟨tapes, g⟩
    obtain rfl : tapes = [] := hs
    rfl
  | succ count ih => rw [Source.skip, ih]; rfl

end Random

open NumberedMelody.Random (Source)

/-! ### Between requests -/

namespace Melody

def Request.source? : Request → Option Source
  | .initFrom _ source => some source
  | _ => none

/-- What calls leave of the stream. -/
theorem lasting_stacked (base : Source) : Lasting (fun _ => False) fun m => base.Stacked 0 m.source where
  reEvaluate := by
    intro m hm
    have hrun := hm.trans (evaluate_stacked m.nodes (.ofOptions m.start) m.source)
    rw [reEvaluate]
    split
    · exact hrun
    · exact hrun
  moved := fun hm _ _ => hm
  started := fun _ hoptions => hoptions.elim
  initialized := fun hm => hm

theorem afterCalls_stacked (m : Melody) (calls : List Call) : m.source.Stacked 0 (m.afterCalls calls).source :=
  (lasting_stacked m.source).afterCalls calls (.start m.source)

theorem initFrom_encloses (m : Melody) (options : Options) (source : Source) :
    source.Encloses (m.initFrom options source).1.source := by
  have hrun := (evaluate_stacked m.nodes (.ofOptions options) source).encloses
  unfold initFrom reEvaluate
  cases hresult : (evaluate m.nodes (.ofOptions options) source).result with
  | error failure => simpa only [hresult] using hrun
  | ok events => simpa only [hresult] using hrun

theorem afterRequest_tapes {m : Melody} (hm : m.source.tapes = []) (request : Request)
    (hsource : ∀ source ∈ request.source?, source.tapes = []) : (m.afterRequest request).source.tapes = [] := by
  cases request with
  | call call => exact (m.afterCalls_stacked [call]).encloses.tapes_eq_nil hm
  | init options => exact (m.initFrom_encloses options _).tapes_eq_nil rfl
  | initFrom options source => exact (m.initFrom_encloses options source).tapes_eq_nil (hsource source rfl)

theorem afterRequests_tapes (history : List Request) :
    ∀ {m : Melody}, m.source.tapes = [] → (∀ request ∈ history, ∀ source ∈ request.source?, source.tapes = []) →
      (m.afterRequests history).source.tapes = [] := by
  induction history with
  | nil =>
    intro m hm _
    exact hm
  | cons request more ih =>
    intro m hm hsources
    have hfirst := afterRequest_tapes hm request (hsources request (List.mem_cons_self ..))
    exact ih hfirst fun other hother => hsources other (List.mem_cons_of_mem _ hother)

/-- **Tapes never leak.**  Running a node, also for its events alone, and
    evaluating nodes, hands back the tapes that it was given, however it ends;
    a melody has no tapes between requests, and its later cycles read on in
    the stream. -/
theorem tapes_never_leak :
    (∀ node context (source : Source), source.Encloses (realize node context source).source) ∧
    (∀ node context (source : Source), source.Encloses (Realizer.events realize node context source).source) ∧
    (∀ nodes context (source : Source), source.Encloses (evaluate nodes context source).source) ∧
    ∀ (m : Melody) (history : List Request), m.source.tapes = [] →
      (∀ request ∈ history, ∀ source ∈ request.source?, source.tapes = []) →
      (m.afterRequests history).source.tapes = [] ∧
      ∀ calls, ∃ count, ((m.afterRequests history).afterCalls calls).source =
        ⟨[], (m.afterRequests history).source.generator.onward count⟩ := by
  refine ⟨?_, ?_, ?_, ?_⟩
  · intro node context source
    exact (realize_stacked node context source).encloses
  · intro node context source
    exact (realize_stacked node context source).encloses
  · intro nodes context source
    exact (evaluate_stacked nodes context source).encloses
  · intro m history hm hsources
    have htapes := afterRequests_tapes history hm hsources
    refine ⟨htapes, ?_⟩
    intro calls
    obtain ⟨count, hcount⟩ := ((m.afterRequests history).afterCalls_stacked calls).exists_skip
    exact ⟨count, hcount.trans (Source.skip_eq_onward htapes count)⟩

/-- A repeat in a repeat fails in its first pass, after two draws, and again at
    the next start. -/
theorem failing_repeats_leave_no_tape :
    let history : List Request := [.init {}, .call (.take 3), .init { seed := some 7 }]
    ∃ m failure, Melody.read "[: ? [: (1,6) Q :2] :2]" = .ok m ∧ (m.init {}).2 = .error failure ∧
      (m.afterRequests history).source.generator.position = 2 ∧ (m.afterRequests history).source.tapes = [] ∧
      ∀ calls, ∃ count, ((m.afterRequests history).afterCalls calls).source =
        ⟨[], (m.afterRequests history).source.generator.onward count⟩ := by
  intro history
  have hcheck : readsAs "[: ? [: (1,6) Q :2] :2]" (fun m =>
      m.source.tapes.isEmpty && (m.init {}).2.toOption.isNone &&
        (m.afterRequests history).source.generator.position == 2) = true := by decide +kernel
  obtain ⟨m, hread, hm⟩ := exists_of_readsAs hcheck
  simp only [Bool.and_eq_true, List.isEmpty_iff, beq_iff_eq] at hm
  obtain ⟨⟨hempty, hfails⟩, hposition⟩ := hm
  have hsources : ∀ request ∈ history, ∀ source ∈ request.source?, source.tapes = [] := by
    intro request hrequest source hsource
    simp only [history, List.mem_cons, List.not_mem_nil, or_false] at hrequest
    rcases hrequest with rfl | rfl | rfl <;> cases hsource
  cases hinit : (m.init {}).2 with
  | ok done => simp [hinit, Except.toOption] at hfails
  | error failure =>
    obtain ⟨htapes, hcalls⟩ := tapes_never_leak.2.2.2 m history hempty hsources
    exact ⟨m, failure, hread, hinit, hposition, htapes, hcalls⟩

end Melody

end NumberedMelody
