/-
  NumberedMelody/Proofs/Evaluation/Derivation.lean
  ================================================
  **Evaluation without a limit.**  A node is run by way of runs of other nodes:
  those inside it and the values of variables.  A run is derived if it is what
  the level of its node makes of derived runs, whatever all other runs may be.
  Derivations are well-founded, so a run that calls for itself without end has
  none (`not_evaluates_of_self_standing`), and there is at most one run for a
  node in a context with a source (`Evaluates.unique`).  What the levels of a
  tree keep to, derived runs keep to (`Evaluates.stays`).
-/
import NumberedMelody.Proofs.Evaluation.Confined

namespace NumberedMelody

open NumberedMelody.Random (Source)

/-- The realizer gives the known runs wherever they are called for. -/
def Realizer.Agrees (calls : Node → Context → Source → Prop) (known r : Realizer) : Prop :=
  ∀ node context source, calls node context source → r node context source = known node context source

/-- **A run of a node, derived from the runs that it calls for.** -/
inductive Evaluates : Node → Context → Source → Run Node (List Step) → Prop where
  | level {node : Node} {context : Context} {source : Source} {run : Run Node (List Step)}
    (calls : Node → Context → Source → Prop) (known : Realizer)
    (inner : ∀ node context source, calls node context source →
      Evaluates node context source (known node context source))
    (outer : ∀ r, Realizer.Agrees calls known r → Realizer.level r r node context source = run) :
    Evaluates node context source run

/-- What nodes in order yield, derived from the runs that they call for. -/
def EvaluatesAll (nodes : List Node) (context : Context) (source : Source) (run : Run (List Node) (List Event)) :
    Prop :=
  ∃ calls known, (∀ node context source, calls node context source →
      Evaluates node context source (known node context source)) ∧
    ∀ r, Realizer.Agrees calls known r → (Realizer.inOrder r nodes context source).withResult assignDurations = run

namespace Realizer

/-- Nothing is done. -/
def idle : Realizer := fun node context source => ⟨node, context, source, .ok []⟩

open Classical in
/-- Known runs where they are called for, others elsewhere. -/
noncomputable def patched (calls : Node → Context → Source → Prop) (known others : Realizer) : Realizer :=
  fun node context source => if calls node context source then known node context source else others node context source

variable {calls calls' : Node → Context → Source → Prop} {known known' : Realizer}

theorem patched_agrees (others : Realizer) : Agrees calls known (patched calls known others) := by
  intro node context source hcalls
  exact if_pos hcalls

/-- Known runs that are the same where both are called for can be put together. -/
theorem patched_agrees_both (h : ∀ node context source, calls node context source → calls' node context source →
    known node context source = known' node context source) : Agrees calls' known' (patched calls known known') := by
  intro node context source hcalls'
  by_cases hcalls : calls node context source
  · exact (if_pos hcalls).trans (h node context source hcalls hcalls')
  · exact if_neg hcalls

end Realizer

open Realizer (idle patched patched_agrees patched_agrees_both)

variable {node : Node} {context : Context} {source : Source}

/-- **There is one run at most.** -/
theorem Evaluates.unique {run run' : Run Node (List Step)} (h : Evaluates node context source run)
    (h' : Evaluates node context source run') : run = run' := by
  induction h generalizing run' with
  | level calls known inner outer ih =>
    cases h' with
    | level calls' known' inner' outer' =>
      have hagrees' := patched_agrees_both fun node context source hcalls hcalls' =>
        ih node context source hcalls (inner' node context source hcalls')
      exact (outer _ (patched_agrees known')).symm.trans (outer' _ hagrees')

theorem EvaluatesAll.unique {nodes : List Node} {run run' : Run (List Node) (List Event)}
    (h : EvaluatesAll nodes context source run) (h' : EvaluatesAll nodes context source run') : run = run' := by
  obtain ⟨calls, known, inner, outer⟩ := h
  obtain ⟨calls', known', inner', outer'⟩ := h'
  have hagrees' := patched_agrees_both fun node context source hcalls hcalls' =>
    (inner node context source hcalls).unique (inner' node context source hcalls')
  exact (outer _ (patched_agrees known')).symm.trans (outer' _ hagrees')

/-! ### Where derived runs stay -/

theorem patched_keepsShape {calls : Node → Context → Source → Prop} {known : Realizer}
    (hknown : ∀ node context source, calls node context source →
      (known node context source).tree.unplayed = node.unplayed) : Realizer.KeepsShape (patched calls known idle) := by
  intro node context source
  unfold patched
  split
  · next hcalls => exact hknown node context source hcalls
  · rfl

theorem Evaluates.keepsShape {run : Run Node (List Step)} (h : Evaluates node context source run) :
    run.tree.unplayed = node.unplayed := by
  induction h with
  | level calls known inner outer ih =>
    rw [← outer _ (patched_agrees idle)]
    exact (patched_keepsShape ih).level _ _ _ _

section Domains

variable {D : Domain} {P : Node → Prop}

theorem patched_follows {calls : Node → Context → Source → Prop} {known : Realizer}
    (hknown : ∀ node context source, calls node context source → P node → D.context context →
      (known node context source).Follows D (known node context source)) :
    Realizer.Follows D P (patched calls known idle)
      (patched calls known idle) := by
  intro node context source hnode hcontext
  unfold patched
  split
  · next hcalls => exact hknown node context source hcalls hnode hcontext
  · exact .yielded hcontext

/-- **Derived runs stay in a domain.** -/
theorem Evaluates.stays (hD : D.Lawful) (hadmits : D.Admits P P) (hP : Realizer.Within P P)
    {run : Run Node (List Step)} (h : Evaluates node context source run) (hnode : P node)
    (hcontext : D.context context) : run.Follows D run := by
  induction h with
  | level calls known inner outer ih =>
    have hall := patched_follows ih
    rw [← outer _ (patched_agrees _)]
    have hkeeps := patched_keepsShape fun node context source hcalls => (inner node context source hcalls).keepsShape
    exact Realizer.Follows.level hD hadmits hall hall hkeeps hP _ _ _ hnode hcontext

theorem EvaluatesAll.stays (hD : D.Lawful) (hadmits : D.Admits P P) (hP : Realizer.Within P P) {nodes : List Node}
    {run : Run (List Node) (List Event)} (h : EvaluatesAll nodes context source run) (hnodes : ∀ node ∈ nodes, P node)
    (hcontext : D.context context) : run.Follows D run := by
  obtain ⟨calls, known, inner, outer⟩ := h
  have hall := patched_follows fun node context source hcalls hnode hcontext =>
    (inner node context source hcalls).stays hD hadmits hP hnode hcontext
  rw [← outer _ (patched_agrees _)]
  exact (hall.inOrder nodes context source hnodes hcontext).withResult fun steps =>
    (assignDurations_blames steps).imp fun _ => hD.ordinary

end Domains

/-! ### No derivation -/

/-- **A variable that stands for itself has no run.** -/
theorem not_evaluates_of_self_standing {text text' name : String} {run : Run Node (List Step)}
    (hself : context.stored.lookup name = some (.variable text' name)) :
    ¬ Evaluates (.variable text name) context source run := by
  intro h
  generalize hnode : Node.variable text name = node at h
  induction h generalizing text with
  | @level node context source run calls known inner outer ih =>
    subst hnode
    by_cases hcalls : calls (.variable text' name) context source
    · exact ih _ _ _ hcalls hself rfl
    · -- what the value yields would not matter, but it is what the variable yields
      have hyields (result : Except Failure (List Step)) : result = run.result := by
        rw [← outer _ (patched_agrees fun node context source => ⟨node, context, source, result⟩)]
        simp only [Realizer.level, Realizer.use, hself, Run.withTree, patched, if_neg hcalls]
      cases (hyields (.ok [])).trans (hyields (.error .nestedTooDeep)).symm

end NumberedMelody
