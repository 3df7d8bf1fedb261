/-
  NumberedMelody/Proofs/Evaluation/DerivedSideBySide.lean
  =======================================================
  **Derivations side by side.**  Of two trees that are alike, also where uses of
  variables are written out, one has a run if the other has, and the runs are
  alike (`derived_tracks`).  Either way the induction is on the derivation that
  is there: the runs that it calls for are known to be alike, and whatever else
  the other tree might call for is not looked at, since a run with a derivation
  does not give up.
-/
import NumberedMelody.Proofs.Evaluation.Approximation
import NumberedMelody.Proofs.Evaluation.SideBySide

namespace NumberedMelody

open NumberedMelody.Random (Source)
open Realizer (derived derived_eq evaluates_derived evaluates_level exhausted patched patched_agrees Ends)

variable {L : Likeness}

theorem Likeness.Yields.deep_iff {α β : Type} {R : α → β → Prop} {x : Except Failure α} {y : Except Failure β}
    (h : L.Yields R x y) : x = .error .nestedTooDeep ↔ y = .error .nestedTooDeep := by
  cases h with
  | ok h => exact iff_of_false (fun h => by cases h) fun h => by cases h
  | error hsame hdeep => simpa only [Except.error.injEq] using hdeep

/-- The known runs, and giving up elsewhere. -/
theorem patched_of_not_calls {calls : Node → Context → Source → Prop} {known : Realizer} {node : Node}
    {context : Context} {source : Source} (h : ¬ calls node context source) :
    (patched calls known exhausted node context source).result = .error .nestedTooDeep := by
  unfold patched
  rw [if_neg h]
  rfl

theorem evaluates_use {context : Context} {source : Source} {name : String} {stored : Node} {run : Run Node (List Step)}
    (hstored : context.stored.lookup name = some stored) (h : Evaluates stored context source run) (text : String) :
    Evaluates (.variable text name) context source (run.withTree fun _ => .variable text name) := by
  have hcalls : Realizer.level derived derived (.variable text name) context source =
      run.withTree fun _ => .variable text name := by
    simp only [Realizer.level, Realizer.use, hstored, derived_eq h]
    rfl
  rw [← hcalls]
  refine evaluates_level fun hdeep => h.result_ne ?_
  rw [hcalls] at hdeep
  exact hdeep

section Tracks

variable (hL : L.Lawful) {context context' : Context} {source : Source} {node node' : Node}

include hL

/-- The run of a value stands for the run of a use of it, where the use is written out. -/
theorem alike_writtenOut {name : String} (hvalue : L.writtenOut name node') (text : String)
    {run run' : Run Node (List Step)} (h : run.Alike L (Node.Alike L false) L.Steps run')
    (hrun' : Evaluates node' context' source run') :
    (run.withTree fun _ => Node.variable text name).Alike L (Node.Alike L true) L.Steps run' where
  tree := .writtenOut text (hL.played hvalue hrun'.keepsShape)
  context := h.context
  source := h.source
  result := h.result

/-- **A run carries over** to a tree that is alike, with more uses written out. -/
theorem Evaluates.tracks {run : Run Node (List Step)} (h : Evaluates node context source run) :
    ∀ {loose : Bool} {node' : Node} {context' : Context}, node.Alike L loose node' → context.Alike L context' →
      ∃ run', Evaluates node' context' source run' ∧ run.Alike L (Node.Alike L loose) L.Steps run' := by
  induction h with
  | @level node context source run calls known inner outer ih =>
    intro loose node' context' hnode hcontext
    have hrun : Evaluates node context source run := .level calls known inner outer
    have hlevel := outer _ (patched_agrees exhausted)
    rcases hnode.anywhere_or with htight | ⟨text, name, rfl, rfl, hvalue⟩
    · have htracks : Realizer.Tracks .first L (patched calls known exhausted) derived := by
        intro loose node node' context context' source hnode hcontext
        by_cases hcalls : calls node context source
        · obtain ⟨run', hrun', halike⟩ := ih node context source hcalls hnode hcontext
          rw [derived_eq hrun', patched_agrees exhausted node context source hcalls]
          exact .inr halike
        · exact .inl (patched_of_not_calls hcalls)
      have hboth : Run.Tracks .first L (Node.Alike L loose) L.Steps _ _ :=
        htracks.level htracks hL (htight false) source hcontext
      rw [hlevel] at hboth
      have halike := hboth.resolve_left hrun.result_ne
      exact ⟨_, evaluates_level fun hdeep => hrun.result_ne (halike.result.deep_iff.mpr hdeep), halike⟩
    · -- the use yields what the stored value does, which is like the value written out
      obtain ⟨stored, hstored, halike⟩ := hcontext.writtenOut hvalue
      simp only [Realizer.level, Realizer.use, hstored] at hlevel
      by_cases hcalls : calls stored context source
      · obtain ⟨run', hrun', hinner⟩ := ih stored context source hcalls halike hcontext
        rw [patched_agrees exhausted stored context source hcalls] at hlevel
        rw [← hlevel]
        exact ⟨run', hrun', alike_writtenOut hL hvalue text hinner hrun'⟩
      · refine absurd ?_ hrun.result_ne
        rw [← hlevel]
        exact patched_of_not_calls hcalls

/-- **A run carries back** to a tree that is alike, with fewer uses written out. -/
theorem Evaluates.tracked {run' : Run Node (List Step)} (h : Evaluates node' context' source run') :
    ∀ {loose : Bool} {node : Node} {context : Context}, node.Alike L loose node' → context.Alike L context' →
      ∃ run, Evaluates node context source run ∧ run.Alike L (Node.Alike L loose) L.Steps run' := by
  induction h with
  | @level node' context' source run' calls known inner outer ih =>
    intro loose node context hnode hcontext
    have hrun : Evaluates node' context' source run' := .level calls known inner outer
    have htracks : Realizer.Tracks .second L derived (patched calls known exhausted) := by
      intro loose node node' context context' source hnode hcontext
      by_cases hcalls : calls node' context' source
      · obtain ⟨run, hrun, halike⟩ := ih node' context' source hcalls hnode hcontext
        rw [derived_eq hrun, patched_agrees exhausted node' context' source hcalls]
        exact .inr halike
      · exact .inl (patched_of_not_calls hcalls)
    have htight : ∀ {node : Node} (loose : Bool), node.Alike L false node' →
        ∃ run, Evaluates node context source run ∧ run.Alike L (Node.Alike L loose) L.Steps run' := by
      intro node loose hnode
      have hboth : Run.Tracks .second L (Node.Alike L loose) L.Steps _ _ :=
        htracks.level htracks hL hnode source hcontext
      rw [outer _ (patched_agrees exhausted)] at hboth
      have halike := hboth.resolve_left hrun.result_ne
      exact ⟨_, evaluates_level fun hdeep => hrun.result_ne (halike.result.deep_iff.mp hdeep), halike⟩
    rcases hnode.anywhere_or with hany | ⟨text, name, rfl, rfl, hvalue⟩
    · exact htight loose (hany false)
    · obtain ⟨stored, hstored, halike⟩ := hcontext.writtenOut hvalue
      obtain ⟨run, hstoredRun, hinner⟩ := htight false halike
      exact ⟨_, evaluates_use hstored hstoredRun text, alike_writtenOut hL hvalue text hinner hrun⟩

/-- **Trees that are alike have runs that are alike, or have none.** -/
theorem derived_tracks : Realizer.Tracks .neither L derived derived := by
  intro loose node node' context context' source hnode hcontext
  by_cases hends : Ends node context source
  · obtain ⟨run', hrun', halike⟩ := (evaluates_derived hends).tracks hL hnode hcontext
    rw [derived_eq hrun']
    exact .inr halike
  · have hends' : ¬ Ends node' context' source := by
      rintro ⟨run', hrun'⟩
      obtain ⟨run, hrun, -⟩ := hrun'.tracked hL hnode hcontext
      exact hends ⟨run, hrun⟩
    rw [Realizer.derived_of_not_ends hends, Realizer.derived_of_not_ends hends']
    exact .still hnode hcontext source (.fails _)

end Tracks

end NumberedMelody
