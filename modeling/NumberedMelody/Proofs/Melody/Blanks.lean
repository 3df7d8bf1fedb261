/-
  NumberedMelody/Proofs/Melody/Blanks.lean
  ========================================
  **Blanks are never heard.**  Two trees that differ in blanks alone, however
  deep these are, are evaluated alike from the same context with the same
  source, and so they are in every cycle after: they yield the same events or
  fail alike, and leave the same source and the same context
  (`blanks_never_heard`).  A variable that is assigned without being evaluated
  stores its tree, with the blanks that this has.
-/
import NumberedMelody.Proofs.Evaluation.Blanks
import NumberedMelody.Proofs.Melody.LazyVariables

namespace NumberedMelody

open NumberedMelody.Random (Source)
open Node (solidAll)

/-- Two runs yield the same or fail alike, and leave the same source, contexts
    that are the same but for blanks in the values of variables, and trees that
    are the same but for blanks. -/
structure Run.SameButBlanks {ρ : Type} (x y : Run (List Node) ρ) : Prop where
  result : x.result = y.result
  source : x.source = y.source
  context : x.context.solid = y.context.solid
  tree : solidAll x.tree = solidAll y.tree

variable {nodes nodes' : List Node}

theorem evaluate_sameButBlanks (hnodes : solidAll nodes = solidAll nodes') {context context' : Context}
    (hcontext : context.solid = context'.solid) (source : Source) :
    (evaluate nodes context source).SameButBlanks (evaluate nodes' context' source) := by
  have hrun := evaluate_solid nodes context source
  have hrun' := evaluate_solid nodes' context' source
  rw [hnodes, hcontext] at hrun
  refine ⟨?_, ?_, ?_, ?_⟩
  · rw [← hrun.result_eq, hrun'.result_eq]
  · rw [← hrun.source_eq, hrun'.source_eq]
  · rw [← hrun.context_eq, hrun'.context_eq]
  · rw [← hrun.tree_eq, hrun'.tree_eq]

namespace Melody

/-- Melodies over trees that differ in blanks alone go on to do so. -/
theorem after_sameButBlanks {m m' : Melody} (hnodes : solidAll m.nodes = solidAll m'.nodes)
    (hstart : m.start = m'.start) (hsource : m.source = m'.source) (c : Nat) :
    solidAll (m.after c).nodes = solidAll (m'.after c).nodes ∧ (m.after c).start = (m'.after c).start ∧
      (m.after c).source = (m'.after c).source := by
  induction c with
  | zero => exact ⟨hnodes, hstart, hsource⟩
  | succ c ih =>
    obtain ⟨hnodes, hstart, hsource⟩ := ih
    obtain ⟨htree, hleft, hkept⟩ := m.after_succ c
    obtain ⟨htree', hleft', hkept'⟩ := m'.after_succ c
    have hcontext : (Context.ofOptions (m.after c).start).solid = (Context.ofOptions (m.after c).start).solid := rfl
    have hrun := evaluate_sameButBlanks hnodes hcontext (m.after c).source
    rw [htree, htree', hleft, hleft', hkept, hkept']
    unfold evaluation
    rw [← hstart, ← hsource]
    exact ⟨hrun.tree, rfl, hrun.source⟩

theorem evaluation_sameButBlanks (m m' : Melody) (hnodes : solidAll m.nodes = solidAll m'.nodes)
    (hstart : m.start = m'.start) (hsource : m.source = m'.source) (c : Nat) :
    (m.evaluation c).SameButBlanks (m'.evaluation c) := by
  obtain ⟨hnodes, hstart, hsource⟩ := after_sameButBlanks hnodes hstart hsource c
  unfold evaluation
  rw [hstart, hsource]
  exact evaluate_sameButBlanks hnodes rfl (m'.after c).source

/-- **Blanks are never heard.**  If two trees are the same without the blanks in
    their lists, at any depth, then the one is evaluated like the other, from the
    same context, or from contexts in which values of variables differ in blanks,
    and with every source.  So it is in every cycle of a melody that has the one
    tree in place of the other. -/
theorem blanks_never_heard (h : solidAll nodes = solidAll nodes') :
    (∀ context context' : Context, context.solid = context'.solid → ∀ source,
        (evaluate nodes context source).SameButBlanks (evaluate nodes' context' source)) ∧
      ∀ m : Melody, m.nodes = nodes → ∀ c,
        (m.evaluation c).SameButBlanks (({ m with nodes := nodes' } : Melody).evaluation c) := by
  constructor
  · intro context context' hcontext source
    exact evaluate_sameButBlanks h hcontext source
  · rintro m rfl c
    exact evaluation_sameButBlanks m { m with nodes := nodes' } h rfl rfl c

/-- Blanks in a list, in nested subdivisions, in a repeat, in operands, in both
    lists of a rhythm and in a value. -/
theorem spaced_pattern_without_blanks :
    ∃ nodes events, readPattern "(0 <1 2>) [3 [4 5]] (: 0 ? :2) (1 2)+(3 4) (0 1)<3,8>(r 3) A=(8 9) A" = .ok nodes ∧
      (solidAll nodes).length < nodes.length ∧
      (evaluate nodes (.ofOptions {}) (.ofSeed 0)).result = .ok events ∧ events.length = 23 ∧
      ∀ context source, (evaluate nodes context source).SameButBlanks (evaluate (solidAll nodes) context source) := by
  have hcheck : (readPattern "(0 <1 2>) [3 [4 5]] (: 0 ? :2) (1 2)+(3 4) (0 1)<3,8>(r 3) A=(8 9) A").toOption.any
      (fun nodes => decide ((solidAll nodes).length < nodes.length) &&
        (evaluate nodes (.ofOptions {}) (.ofSeed 0)).result.toOption.any (·.length = 23)) = true := by decide +kernel
  obtain ⟨nodes, hread, hnodes⟩ := eq_ok_of_any hcheck
  obtain ⟨hshorter, hyields⟩ := Bool.and_eq_true_iff.mp hnodes
  obtain ⟨events, hevents, hlength⟩ := eq_ok_of_any hyields
  have hsolid := blanks_never_heard (Node.solidAll_solidAll nodes).symm
  refine ⟨nodes, events, hread, of_decide_eq_true hshorter, hevents, of_decide_eq_true hlength, ?_⟩
  intro context source
  exact hsolid.1 context context rfl source

end Melody

end NumberedMelody
