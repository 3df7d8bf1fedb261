/-
  NumberedMelody/Proofs/Evaluation/Stateless.lean
  ===============================================
  **Trees that evaluate alike every time.**  A tree that has no cycles and draws
  nothing at random leaves the source as it was: whatever tapes its repeats start
  are dropped again before anything could be kept on them
  (`evaluate_stateless_source`).
-/
import NumberedMelody.Proofs.Evaluation.Maintenance
import NumberedMelody.Proofs.Random.Tape

namespace NumberedMelody

open NumberedMelody.Random (Source Tape)

namespace Node

/-- The node counts its visits, or draws at random. -/
def isStateful : Node → Bool
  | .cycle _ _ _ => true
  | .randomPitch _ _ => true
  | .randomInteger _ _ _ _ => true
  | _ => false

/-- No node is stateful, at any depth. -/
abbrev Stateless : Node → Prop := Everywhere fun node => node.isStateful = false

@[simp] theorem isStateful_unplayed (node : Node) : node.unplayed.isStateful = node.isStateful := by
  cases node <;> simp only [unplayed, isStateful]

theorem Stateless.acyclic {node : Node} (h : node.Stateless) : node.Acyclic := by
  refine h.imp ?_
  intro node hnode
  cases node with
  | cycle text values visits => simp [isStateful] at hnode
  | _ => rfl

theorem stateless_of_checkTo {node : Node} (depth : Nat) (h : checkTo (!·.isStateful) depth node = true) :
    node.Stateless := by
  refine (everywhere_of_checkTo depth h).imp ?_
  intro node hnode
  simpa using hnode

end Node

/-- Nothing is stateful, and sources are the one that evaluation began with,
    inside the tapes that were started since. -/
def drawless (base : Source) : Invariant where
  node node := node.isStateful = false
  source n s := ∃ tapes : List Tape, tapes.length = n ∧ s = base.within tapes

theorem drawless_kept (base : Source) : (drawless base).Kept where
  toKeptByNodes := by
    refine ⟨?_, fun _ _ => trivial, fun _ => rfl, fun _ _ => rfl⟩
    intro node other hnode hshape
    have hstate := congrArg Node.isStateful hshape
    simp only [Node.isStateful_unplayed] at hstate
    exact hstate.trans hnode
  toKeptByOptions := .of_all fun _ => trivial
  toKeptBySources := by
    refine ⟨?_, ?_, ?_, ?_, ?_⟩
    · intro n s text overrides hnode
      cases hnode
    · intro n s text overrides low high hnode
      cases hnode
    · rintro n s ⟨tapes, rfl, rfl⟩
      exact ⟨Tape.blank :: tapes, rfl, rfl⟩
    · rintro n s ⟨tapes, htapes, rfl⟩
      cases tapes with
      | nil => cases htapes
      | cons tape tapes => exact ⟨tape.rewound :: tapes, htapes, rfl⟩
    · rintro n s ⟨tapes, htapes, rfl⟩
      cases tapes with
      | nil => cases htapes
      | cons tape tapes => exact ⟨tapes, Nat.succ.inj htapes, rfl⟩
  toKeptByEvents := .of_all fun _ => trivial

/-- Without tapes of its own, the source is the one that evaluation began with. -/
theorem eq_of_drawless {base s : Source} (h : (drawless base).source 0 s) : s = base := by
  obtain ⟨tapes, htapes, rfl⟩ := h
  obtain rfl := List.eq_nil_of_length_eq_zero htapes
  rfl

/-- **Nothing is drawn for a stateless tree.** -/
theorem evaluate_stateless_source {nodes : List Node} (h : ∀ node ∈ nodes, node.Stateless) (options : Options)
    (source : Source) : (evaluate nodes (.ofOptions options) source).source = source :=
  eq_of_drawless (evaluate_maintains (drawless_kept source) h (.ofOptions trivial) ⟨[], rfl, rfl⟩).source

end NumberedMelody
