/-
  NumberedMelody/Proofs/Evaluation/Pieces.lean
  ============================================
  **Evaluating in pieces.**  Nodes are run from left to right, and a subdivision
  shares its duration among its own steps only.  So what nodes yield in front of
  others is what they yield alone, and the others go on from the context and the
  source that are left (`evaluate_append`).
-/
import NumberedMelody.Proofs.Evaluation.Invariant

namespace NumberedMelody

open NumberedMelody.Random (Source)

/-- Events that are ready stay as they are. -/
theorem assignDurations_ready (events : List Event) : assignDurations (events.map .ready) = .ok events := by
  induction events with
  | nil => rfl
  | cons e more ih =>
    rw [List.map_cons, assignDurations, ih]
    rfl

theorem assignDurations_append (steps others : List Step) :
    assignDurations (steps ++ others) =
      (assignDurations steps).bind fun before => (assignDurations others).map (before ++ ·) := by
  induction steps with
  | nil =>
    show assignDurations others = (assignDurations others).map ([] ++ ·)
    cases assignDurations others <;> rfl
  | cons step more ih =>
    show step.events.bind (fun first => (assignDurations (more ++ others)).bind fun rest => .ok (first ++ rest)) =
      (step.events.bind fun first => (assignDurations more).bind fun rest => .ok (first ++ rest)).bind
        fun before => (assignDurations others).map (before ++ ·)
    rw [ih]
    rcases step.events with _ | first
    · rfl
    · rcases assignDurations more with _ | rest
      · rfl
      · rcases assignDurations others with _ | after
        · rfl
        · exact congrArg Except.ok (List.append_assoc first rest after).symm

namespace Realizer

/-- Nodes in front of others are run first, and the others go on from there. -/
theorem inOrder_append (realize : Realizer) (nodes others : List Node) :
    ∀ (context : Context) (source : Source),
      inOrder realize (nodes ++ others) context source =
        ((inOrder realize nodes context source).andThen others fun steps context source =>
          (inOrder realize others context source).withResult fun more => .ok (steps ++ more)).withTree
            fun (nodes, others) => nodes ++ others := by
  induction nodes with
  | nil =>
    intro context source
    have hsame : ∀ result : Except Failure (List Step), result.bind (fun more => .ok more) = result := by
      intro result
      cases result <;> rfl
    simp only [List.nil_append, inOrder, Run.andThen, Run.withResult, Run.withTree, hsame]
  | cons node nodes ih =>
    intro context source
    rw [List.cons_append, inOrder, inOrder]
    cases hnode : (realize node context source).result with
    | error failure => simp only [Run.andThen, Run.withTree, hnode, List.cons_append]
    | ok steps =>
      simp only [Run.andThen, Run.withTree, Run.withResult, hnode, ih]
      cases hnodes : (inOrder realize nodes (realize node context source).context
          (realize node context source).source).result with
      | error failure => simp only [Except.bind, List.cons_append]
      | ok more =>
        simp only [Except.bind, List.cons_append, List.append_assoc]
        cases (inOrder realize others _ _).result <;> rfl

theorem inOrder_append_of_ok {realize : Realizer} {nodes : List Node} {context : Context} {source : Source}
    {steps : List Step} (h : (inOrder realize nodes context source).result = .ok steps) (others : List Node) :
    inOrder realize (nodes ++ others) context source =
      let first := inOrder realize nodes context source
      let second := inOrder realize others first.context first.source
      ⟨first.tree ++ second.tree, second.context, second.source, second.result.map (steps ++ ·)⟩ := by
  rw [inOrder_append, Run.andThen, h]
  rfl

end Realizer

variable {nodes others : List Node} {context : Context} {source : Source}

/-- **What is evaluated in one go is evaluated piece by piece.**  After nodes
    that yield events, others yield what they yield from the context and the
    source that are left. -/
theorem evaluate_append {before : List Event} (h : (evaluate nodes context source).result = .ok before)
    (others : List Node) :
    evaluate (nodes ++ others) context source =
      let first := evaluate nodes context source
      let second := evaluate others first.context first.source
      ⟨first.tree ++ second.tree, second.context, second.source, second.result.map (before ++ ·)⟩ := by
  obtain ⟨steps, hsteps, hbefore⟩ := bind_eq_ok.mp h
  unfold evaluate
  rw [Realizer.inOrder_append_of_ok hsteps]
  simp only [Run.withResult]
  congr 1
  cases (Realizer.inOrder realize others _ _).result with
  | error failure => rfl
  | ok more =>
    show assignDurations (steps ++ more) = (assignDurations more).map (before ++ ·)
    rw [assignDurations_append, hbefore]
    rfl

/-- The nodes in front yield events of their own if all nodes do. -/
theorem evaluate_of_append_ok {events : List Event}
    (h : (evaluate (nodes ++ others) context source).result = .ok events) :
    ∃ before, (evaluate nodes context source).result = .ok before := by
  obtain ⟨all, hall, hevents⟩ := bind_eq_ok.mp h
  cases hnodes : (Realizer.inOrder realize nodes context source).result with
  | error failure =>
    rw [Realizer.inOrder_append] at hall
    simp only [Run.andThen, hnodes, Run.withTree] at hall
    cases hall
  | ok steps =>
    rw [Realizer.inOrder_append_of_ok hnodes] at hall
    obtain ⟨more, -, rfl⟩ := map_eq_ok.mp hall
    rw [assignDurations_append] at hevents
    obtain ⟨before, hbefore, -⟩ := bind_eq_ok.mp hevents
    refine ⟨before, ?_⟩
    unfold evaluate
    rw [Run.withResult, hnodes]
    exact hbefore

end NumberedMelody
