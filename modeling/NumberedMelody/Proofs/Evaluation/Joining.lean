/-
  NumberedMelody/Proofs/Evaluation/Joining.lean
  =============================================
  **In pieces and at once.**  Evaluation goes through all nodes before it shares
  out any duration, so of two pieces the second is run before it is known that
  the durations of the first can be shared out.  Neither piece sees the steps of
  the other, and both ways come to the same whenever nothing fails: events,
  context, source, and the visits and kept chords in the trees
  (`evaluate_inTurn`).  Blanks leave no trace, so this
  holds of texts that are joined by separators as well
  (`pieces_evaluate_as_whole`).
-/
import NumberedMelody.Proofs.Evaluation.Lockstep
import NumberedMelody.Proofs.Evaluation.Pieces
import NumberedMelody.Proofs.Grammar.Margins

namespace NumberedMelody

open NumberedMelody.Random (Source)
open Node (withoutBlanks withoutBlanks_append)
open Text (isSeparator)

/-- One run comes to the same as two others, of which the second goes on from
    where the first ended: it yields if both of them do, and then the events of
    both, and leaves what they leave.  Of the trees only a view is compared. -/
structure Run.InTurn (view : List Node → List Node) (whole first second : Run (List Node) (List Event)) : Prop where
  result : ∀ events, whole.result = .ok events ↔
    ∃ before after, first.result = .ok before ∧ second.result = .ok after ∧ before ++ after = events
  tree : ∀ events, whole.result = .ok events → view whole.tree = view first.tree ++ view second.tree
  context : ∀ events, whole.result = .ok events → whole.context = second.context
  source : ∀ events, whole.result = .ok events → whole.source = second.source

theorem evaluate_inTurn (nodes others : List Node) (context : Context) (source : Source) :
    let first := evaluate nodes context source
    (evaluate (nodes ++ others) context source).InTurn id first (evaluate others first.context first.source) := by
  intro first
  -- whether all succeeds or both pieces do, the first piece does
  have hwhole : ∀ before, first.result = .ok before → evaluate (nodes ++ others) context source =
      let second := evaluate others first.context first.source
      ⟨first.tree ++ second.tree, second.context, second.source, second.result.map (before ++ ·)⟩ :=
    fun before hbefore => evaluate_append hbefore others
  refine ⟨?_, ?_, ?_, ?_⟩
  · intro events
    constructor
    · intro h
      obtain ⟨before, hbefore⟩ := evaluate_of_append_ok h
      rw [hwhole before hbefore] at h
      obtain ⟨after, hafter, hevents⟩ := map_eq_ok.mp h
      exact ⟨before, after, hbefore, hafter, hevents⟩
    · rintro ⟨before, after, hbefore, hafter, rfl⟩
      rw [hwhole before hbefore]
      exact map_eq_ok.mpr ⟨after, hafter, rfl⟩
  · intro events h
    obtain ⟨before, hbefore⟩ := evaluate_of_append_ok h
    exact congrArg Run.tree (hwhole before hbefore)
  · intro events h
    obtain ⟨before, hbefore⟩ := evaluate_of_append_ok h
    rw [hwhole before hbefore]
  · intro events h
    obtain ⟨before, hbefore⟩ := evaluate_of_append_ok h
    rw [hwhole before hbefore]

/-! ### Blanks -/

/-- The realizer runs a blank without a trace. -/
def Realizer.SkipsBlanks (r : Realizer) : Prop :=
  ∀ text context source, r (.blank text) context source = ⟨.blank text, context, source, .ok []⟩

theorem Realizer.SkipsBlanks.inOrder {r : Realizer} (h : r.SkipsBlanks) (keeps : KeepsShape r) (nodes : List Node) :
    ∀ (context : Context) (source : Source),
      (Realizer.inOrder r nodes context source).withTree withoutBlanks =
        Realizer.inOrder r (withoutBlanks nodes) context source := by
  induction nodes with
  | nil =>
    intro context source
    rfl
  | cons node more ih =>
    intro context source
    cases hblank : node.isBlank with
    | true =>
      -- a blank yields nothing and leaves everything as it was
      obtain ⟨text, rfl⟩ : ∃ text, node = .blank text := by
        cases node with
        | blank text => exact ⟨text, rfl⟩
        | _ => cases hblank
      have hskip : withoutBlanks (.blank text :: more) = withoutBlanks more := rfl
      rw [hskip, ← ih context source, Realizer.inOrder, h]
      simp only [Run.andThen, Run.withTree, Run.withResult, List.nil_append]
      cases (Realizer.inOrder r more context source).result <;> rfl
    | false =>
      have htree := (Node.isBlank_eq_of_unplayed_eq (keeps node context source)).trans hblank
      have hkeep : withoutBlanks (node :: more) = node :: withoutBlanks more := by
        simp only [withoutBlanks, List.filter_cons, hblank, Bool.not_false, if_true]
      have hkeep' : ∀ others, withoutBlanks ((r node context source).tree :: others) =
          (r node context source).tree :: withoutBlanks others := by
        intro others
        simp only [withoutBlanks, List.filter_cons, htree, Bool.not_false, if_true]
      rw [hkeep, Realizer.inOrder, Realizer.inOrder]
      cases hresult : (r node context source).result with
      | error failure => simp only [Run.andThen, Run.withTree, hresult, hkeep']
      | ok steps =>
        simp only [Run.andThen, Run.withTree, Run.withResult, hresult, hkeep', ← ih]

theorem inOrder_withoutBlanks (nodes : List Node) (context : Context) (source : Source) :
    (Realizer.inOrder realize nodes context source).withTree withoutBlanks =
      Realizer.inOrder realize (withoutBlanks nodes) context source :=
  Realizer.SkipsBlanks.inOrder realize_blank realize_keepsShape nodes context source

/-- Blanks leave no trace. -/
theorem evaluate_withoutBlanks (nodes : List Node) (context : Context) (source : Source) :
    (evaluate nodes context source).withTree withoutBlanks = evaluate (withoutBlanks nodes) context source :=
  congrArg (Run.withResult · assignDurations) (inOrder_withoutBlanks nodes context source)

/-- **Evaluating in pieces is evaluating at once.**  Of any nodes, in any context
    and with any source, a part evaluated after the other comes to the same as
    both evaluated together; and two texts that are read and evaluated in turn
    come to the same as one text in which separators join them. -/
theorem pieces_evaluate_as_whole :
    (∀ (nodes others : List Node) (context : Context) (source : Source),
      let first := evaluate nodes context source
      (evaluate (nodes ++ others) context source).InTurn id first
        (evaluate others first.context first.source)) ∧
    ∀ (a b run : String) (na nb : List Node), readPattern a = .ok na → readPattern b = .ok nb →
      run ≠ "" → (∀ c ∈ run.toList, isSeparator c = true) →
      ∃ nodes, readPattern (a ++ run ++ b) = .ok nodes ∧ ∀ (context : Context) (source : Source),
        let first := evaluate na context source
        (evaluate nodes context source).InTurn withoutBlanks first (evaluate nb first.context first.source) := by
  refine ⟨evaluate_inTurn, ?_⟩
  intro a b run na nb ha hb hne hrun
  obtain ⟨nodes, hread, hnodes⟩ := readPattern_joined ha hb hne hrun
  refine ⟨nodes, hread, ?_⟩
  intro context source first
  have hturn := evaluate_inTurn (withoutBlanks na) (withoutBlanks nb) context source
  rw [← hnodes, ← evaluate_withoutBlanks nodes, ← evaluate_withoutBlanks na] at hturn
  simp only [← evaluate_withoutBlanks nb] at hturn
  exact ⟨hturn.result, hturn.tree, hturn.context, hturn.source⟩

/-- Two lines with blanks at both ends.  The first changes the octave and keeps the
    chord of its numeral, the second counts its visits and passes a bar. -/
theorem two_lines_evaluate_as_one :
    ∃ na nb nodes events, readPattern "^ iv " = .ok na ∧ readPattern " <1 2> | [3 ?]" = .ok nb ∧
      readPattern ("^ iv " ++ "\n" ++ " <1 2> | [3 ?]") = .ok nodes ∧
      (evaluate nodes (.ofOptions {}) (.ofSeed 0)).result = .ok events ∧ events.length = 4 ∧
      let first := evaluate na (.ofOptions {}) (.ofSeed 0)
      (evaluate nodes (.ofOptions {}) (.ofSeed 0)).InTurn withoutBlanks first
        (evaluate nb first.context first.source) := by
  have hcheck : (readPattern "^ iv ").toOption.any (fun _ => true) = true := by decide +kernel
  have hcheck' : (readPattern " <1 2> | [3 ?]").toOption.any (fun _ => true) = true := by decide +kernel
  have hjoined : (readPattern ("^ iv " ++ "\n" ++ " <1 2> | [3 ?]")).toOption.any (fun nodes =>
      (evaluate nodes (.ofOptions {}) (.ofSeed 0)).result.toOption.any (·.length = 4)) = true := by decide +kernel
  obtain ⟨na, hna, -⟩ := eq_ok_of_any hcheck
  obtain ⟨nb, hnb, -⟩ := eq_ok_of_any hcheck'
  obtain ⟨nodes, hnodes, hyields⟩ := eq_ok_of_any hjoined
  obtain ⟨events, hevents, hlength⟩ := eq_ok_of_any hyields
  have hrun : ∀ c ∈ "\n".toList, isSeparator c = true := List.all_eq_true.mp (by decide)
  obtain ⟨nodes', hnodes', hturn⟩ := pieces_evaluate_as_whole.2 "^ iv " " <1 2> | [3 ?]" "\n" na nb hna hnb (by decide) hrun
  obtain rfl : nodes = nodes' := Except.ok.inj (hnodes.symm.trans hnodes')
  exact ⟨na, nb, nodes, events, hna, hnb, hnodes, hevents, of_decide_eq_true hlength, hturn _ _⟩

end NumberedMelody
