/-
  NumberedMelody/Proofs/Evaluation/PlayedTrees.lean
  =================================================
  **Trees that were played before.**  All that evaluation leaves in a tree
  without cycles are the chords that its numerals keep.  A kept chord is played
  again only for options that compare equal to those it was built for, so the
  tree goes on to yield events that compare equal to those of the tree as it was
  written, with the same draws (`evaluate_played`).
-/
import NumberedMelody.Proofs.Evaluation.KeptChord
import NumberedMelody.Proofs.Evaluation.SameEvents
import NumberedMelody.Proofs.Evaluation.SideBySide

namespace NumberedMelody

open NumberedMelody.Random (Source)
open Node (unplayedAll)

/-- Numerals are taken for one another whatever they keep, and events if they
    compare equal. -/
def keepingChords : Likeness where
  event := Event.Same
  numeral := fun k k' => k.numeral = k'.numeral

theorem keepingChords_literal : keepingChords.Literal := fun _ _ h => h

/-- Numerals that are written alike are played alike, whatever they keep. -/
theorem sameResult_play {k k' : KeptNumeral} (h : k.numeral = k'.numeral) {context context' : Context}
    (hoptions : context.options = context'.options) :
    SameResult (fun c c' => Event.Same (.chord c) (.chord c')) (k.play context).1 (k'.play context').1 ∧
      (k.play context).2.numeral = (k'.play context').2.numeral := by
  rw [k.play_congr hoptions, KeptNumeral.numeral_play, KeptNumeral.numeral_play]
  exact ⟨(k.sameAnswer_of_numeral_eq h context').mono fun _ _ => .chord, h⟩

theorem keepingChords_lawful : keepingChords.Lawful where
  isBlank h := h.elim
  played h := h.elim
  unassigned h := h.elim
  events := Event.congruence_same
  sameNumeral _ := rfl
  text h := congrArg RomanNumeral.text h
  answers := sameResult_play

/-! ### Trees and contexts -/

theorem Node.Acyclic.alike {node other : Node} (h : node.Acyclic) (hplayed : other.unplayed = node.unplayed)
    (loose : Bool) : node.Alike keepingChords loose other :=
  Node.alike_of_unplayed_eq keepingChords_lawful id
    (h.imp fun _ hcycle => ⟨hcycle, fun _ _ => trivial, fun _ _ => trivial⟩) loose hplayed

theorem alike_of_unplayedAll_eq {nodes others : List Node} (h : ∀ node ∈ nodes, node.Acyclic)
    (hplayed : unplayedAll others = unplayedAll nodes) :
    List.Forall₂ (Node.Alike keepingChords true) nodes others :=
  ((List.forall₂_and_left _ _).mpr ⟨h, forall₂_unplayed hplayed⟩).imp fun _ _ hnode => hnode.1.alike hnode.2 true

/-- A context is like itself: what it stores may hold cycles, but is the same. -/
theorem Context.alike_self (context : Context) : context.Alike keepingChords context where
  options := rfl
  start := rfl
  stored := by
    intro name _
    refine rel_refl (fun node => Node.alike_self keepingChords_lawful ?_ true) _
    exact Node.everywhere_of_all (fun _ => ⟨fun _ _ => trivial, fun _ _ => trivial⟩) node
  writtenOut h := h.elim

/-! ### Runs -/

section Runs

variable {nodes others : List Node} (hacyclic : ∀ node ∈ nodes, node.Acyclic)
  (hplayed : unplayedAll others = unplayedAll nodes) (context : Context) (source : Source)

include hacyclic hplayed

theorem inOrder_played :
    (Realizer.inOrder realize nodes context source).source = (Realizer.inOrder realize others context source).source ∧
      SameResult (List.Forall₂ (Step.Rel Event.Same)) (Realizer.inOrder realize nodes context source).result
        (Realizer.inOrder realize others context source).result := by
  have hrun := ((realize_tracks keepingChords_lawful keepingChords_literal).inOrder
    (alike_of_unplayedAll_eq hacyclic hplayed) source context.alike_self).alike
  exact ⟨hrun.source, hrun.result.same keepingChords_literal⟩

/-- **A tree without cycles yields the same events again**, however often it was
    played, and leaves the same source. -/
theorem evaluate_played :
    (evaluate nodes context source).source = (evaluate others context source).source ∧
      SameResult (List.Forall₂ Event.Same) (evaluate nodes context source).result
        (evaluate others context source).result := by
  obtain ⟨hsource, hresult⟩ := inOrder_played hacyclic hplayed context source
  exact ⟨hsource, hresult.bind fun _ _ => Event.congruence_same.assignDurations⟩

end Runs

end NumberedMelody
