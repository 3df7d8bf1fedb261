/-
  NumberedMelody/Proofs/Melody/History.lean
  =========================================
  **What a history leaves.**  After every history of starts and calls what
  evaluation maintains holds of the events (`worn_events`), and the tree has the
  shape that it was read with (`afterRequests_keeps_tree`).  A tree without
  cycles keeps nothing beyond that but chords of its numerals, and a start
  overwrites everything else.  So a start is a full reset: all answers compare
  equal to those after a start without the history (`init_resets`).
-/
import NumberedMelody.Proofs.Melody.Periodic

namespace NumberedMelody.Melody

open NumberedMelody.Random (Source)
open Node (unplayedAll)

/-! ### Events -/

/-- The tree may be evaluated again, and the events are such as it yields. -/
structure Maintained (I : Invariant) (m : Melody) : Prop where
  nodes : ∀ node ∈ m.nodes, I.Admits node
  start : I.options m.start
  events : I.Events m.events

theorem lasting_maintained {I : Invariant} (hI : I.Kept) (hsource : ∀ source, I.source 0 source) :
    Lasting I.options (Maintained I) where
  reEvaluate := by
    intro m hm
    have hrun := evaluate_maintains hI hm.nodes (.ofOptions hm.start) (hsource m.source)
    have hnodes := Invariant.Admits.of_unplayedAll_eq hI hm.nodes
      (evaluate_keepsShape m.nodes (.ofOptions m.start) m.source)
    unfold reEvaluate
    simp only
    split
    · next events hevents => exact ⟨hnodes, hm.start, hrun.result events hevents⟩
    · exact ⟨hnodes, hm.start, hm.events⟩
  moved := fun hm _ _ => ⟨hm.nodes, hm.start, hm.events⟩
  started := fun hm hoptions _ => ⟨hm.nodes, hoptions, hm.events⟩
  initialized := fun hm => ⟨hm.nodes, hm.start, hm.events⟩

/-- What evaluation maintains holds of the events that a melody has after any history. -/
theorem worn_events {I : Invariant} (hI : I.Kept) (hsources : ∀ source, I.source 0 source) {text : String}
    {nodes : List Node} (hnodes : ∀ node ∈ nodes, I.Admits node) (hdefault : I.options {}) (source : Source)
    {history : List Request} (hoptions : ∀ request ∈ history, ∀ options ∈ request.options?, I.options options) :
    I.Events ((ofNodes text nodes).worn source history).events := by
  have hfresh : Maintained I { ofNodes text nodes with source } :=
    ⟨hnodes, hdefault, fun e he => by cases he⟩
  exact ((lasting_maintained hI hsources).afterRequests history hfresh hoptions).events

/-! ### The tree -/

/-- The melody of a text and of a tree that may have been played since. -/
structure Has (text : String) (nodes : List Node) (m : Melody) : Prop where
  text : m.text = text
  tree : unplayedAll m.nodes = unplayedAll nodes

theorem lasting_has (text : String) (nodes : List Node) : Lasting (fun _ => True) (Has text nodes) where
  reEvaluate := fun {m} hm => ⟨m.reEvaluate_text.trans hm.text, m.unplayedAll_reEvaluate.trans hm.tree⟩
  moved := fun hm _ _ => ⟨hm.text, hm.tree⟩
  started := fun hm _ _ => ⟨hm.text, hm.tree⟩
  initialized := fun hm => ⟨hm.text, hm.tree⟩

/-- No request changes anything of the tree but its visits and the chords that it keeps. -/
theorem afterRequests_keeps_tree (m : Melody) (history : List Request) :
    Has m.text m.nodes (m.afterRequests history) :=
  (lasting_has m.text m.nodes).afterRequests history ⟨rfl, rfl⟩ fun _ _ _ _ => trivial

/-! ### Answers that agree -/

/-- Answers that agree, their numbers compared. -/
inductive Answer.Same : Answer → Answer → Prop
  | event {result result' : Except Failure Event} (h : SameResult Event.Same result result') :
    Same (.event result) (.event result')
  | events {result result' : Except Failure (List Event)} (h : SameResult (List.Forall₂ Event.Same) result result') :
    Same (.events result) (.events result')
  | rows {result result' : Except Failure (List (List Value))}
    (h : SameResult (List.Forall₂ (List.Forall₂ Value.Same)) result result') : Same (.rows result) (.rows result')
  | items {results results' : List (Except Failure Event)} (h : List.Forall₂ (SameResult Event.Same) results results') :
    Same (.items results) (.items results')
  | walked {events events' : List Event} (h : List.Forall₂ Event.Same events events') :
    Same (.walked events) (.walked events')
  | evaluated (result : Except Failure Unit) : Same (.evaluated result) (.evaluated result)

/-- Melodies over trees without cycles that stand at the same place and go on alike. -/
structure Twins (m other : Melody) : Prop extends Alike m other where
  acyclic : ∀ node ∈ m.nodes, node.Acyclic
  cycle : other.cycle = m.cycle
  cursor : other.cursor = m.cursor

namespace Twins

variable {m other : Melody}

theorem reEvaluate (h : m.Twins other) :
    other.reEvaluate.2 = m.reEvaluate.2 ∧ m.reEvaluate.1.Twins other.reEvaluate.1 := by
  obtain ⟨hresult, hleft⟩ := h.toAlike.reEvaluate h.acyclic
  have hacyclic : ∀ node ∈ m.reEvaluate.1.nodes, node.Acyclic :=
    Node.forall_of_unplayedAll_eq .of_unplayed_eq h.acyclic m.unplayedAll_reEvaluate
  refine ⟨hresult, hleft, hacyclic, ?_, ?_⟩
  · rw [other.reEvaluate_place.1, m.reEvaluate_place.1, h.cycle]
  · rw [other.reEvaluate_place.2, m.reEvaluate_place.2, hresult, h.cursor]

theorem inCycle (h : m.Twins other) (cycle : Nat) :
    (other.inCycle cycle).2 = (m.inCycle cycle).2 ∧ (m.inCycle cycle).1.Twins (other.inCycle cycle).1 := by
  have hmoved : (m.moved cycle m.cursor).Twins (other.moved cycle other.cursor) :=
    ⟨h.toAlike.moved _ _ _ _, h.acyclic, rfl, h.cursor⟩
  unfold Melody.inCycle
  rw [h.cycle]
  split
  · exact ⟨rfl, h⟩
  · exact hmoved.reEvaluate

theorem get (h : m.Twins other) (index : Nat) :
    SameResult Event.Same (m.get index).2 (other.get index).2 ∧ (m.get index).1.Twins (other.get index).1 := by
  unfold Melody.get
  rw [h.cycleLength, h.initialized]
  by_cases hready : m.initialized
  · simp only [hready, Bool.not_true, Bool.false_eq_true, if_false]
    cases m.cycleLength with
    | error failure => exact ⟨.error failure, h⟩
    | ok length =>
      obtain ⟨hresult, hleft⟩ := h.inCycle (index / length)
      dsimp only
      rcases hcycle : m.inCycle (index / length) with ⟨left, result⟩
      rcases hcycle' : other.inCycle (index / length) with ⟨left', result'⟩
      rw [hcycle, hcycle'] at hresult hleft
      obtain rfl : result' = result := hresult
      cases result' with
      | error failure => exact ⟨.error failure, hleft⟩
      | ok done => exact ⟨hleft.eventAt index, hleft⟩
  · simp only [hready, Bool.not_false, if_true]
    exact ⟨.error _, h⟩

theorem takeFrom (n : Nat) : ∀ {m other : Melody} (index : Nat), m.Twins other →
    SameResult (List.Forall₂ Event.Same) (m.takeFrom index n).2 (other.takeFrom index n).2 ∧
      (m.takeFrom index n).1.Twins (other.takeFrom index n).1 := by
  induction n with
  | zero => exact fun _ h => ⟨.ok .nil, h⟩
  | succ n ih =>
    intro m other index h
    obtain ⟨hresult, hleft⟩ := h.get index
    unfold Melody.takeFrom
    rcases hget : m.get index with ⟨left, result⟩
    rcases hget' : other.get index with ⟨left', result'⟩
    rw [hget, hget'] at hresult hleft
    cases hresult with
    | error failure => exact ⟨.error failure, hleft⟩
    | ok he =>
      obtain ⟨hothers, hend⟩ := ih (index + 1) hleft
      exact ⟨hothers.map fun _ _ hsame => .cons he hsame, hend⟩

theorem loopFrom (n : Nat) : ∀ {m other : Melody} (index : Nat), m.Twins other →
    List.Forall₂ (SameResult Event.Same) (m.loopFrom index n).2 (other.loopFrom index n).2 ∧
      (m.loopFrom index n).1.Twins (other.loopFrom index n).1 := by
  induction n with
  | zero => exact fun _ h => ⟨.nil, h⟩
  | succ n ih =>
    intro m other index h
    obtain ⟨hresult, hleft⟩ := h.get index
    obtain ⟨hothers, hend⟩ := ih (index + 1) hleft
    exact ⟨.cons hresult hothers, hend⟩

/-- Twins answer a call alike, and are twins afterwards. -/
theorem call (h : m.Twins other) (call : Call) :
    (m.answer call).Same (other.answer call) ∧ (m.afterCall call).Twins (other.afterCall call) := by
  cases call with
  | get index =>
    obtain ⟨hresult, hleft⟩ := h.get index
    exact ⟨.event hresult, hleft⟩
  | take n =>
    obtain ⟨hresult, hleft⟩ := takeFrom n 0 h
    exact ⟨.events hresult, hleft⟩
  | collect n fields =>
    obtain ⟨hresult, hleft⟩ := takeFrom n 0 h
    refine ⟨.rows (hresult.map fun _ _ hevents => ?_), hleft⟩
    rw [List.forall₂_map_left_iff, List.forall₂_map_right_iff]
    exact List.forall₂_same.mpr fun field _ => List.rel_map (fun _ _ he => he.field field) hevents
  | loop n =>
    obtain ⟨hresults, hleft⟩ := loopFrom n 0 h
    exact ⟨.items hresults, hleft⟩
  | walk n =>
    have hwalked : List.Forall₂ Event.Same (m.walk n).2 (other.walk n).2 := by
      unfold Melody.walk
      rw [h.cursor]
      exact List.forall₂_take n (List.forall₂_drop m.cursor h.events)
    refine ⟨.walked hwalked, h.toAlike.moved _ _ _ _, h.acyclic, h.cycle, ?_⟩
    show other.cursor + (other.walk n).2.length = m.cursor + (m.walk n).2.length
    rw [h.cursor, hwalked.length_eq]
  | reEvaluate =>
    obtain ⟨hresult, hleft⟩ := h.reEvaluate
    refine ⟨?_, hleft⟩
    simp only [answer, hresult]
    exact .evaluated _

theorem answers (calls : List Call) : ∀ {m other : Melody}, m.Twins other →
    List.Forall₂ Answer.Same (m.answers calls) (other.answers calls) := by
  induction calls with
  | nil => exact fun _ => .nil
  | cons call more ih =>
    intro m other h
    obtain ⟨hanswer, hleft⟩ := h.call call
    exact .cons hanswer (ih hleft)

end Twins

/-! ### Starting anew -/

/-- A start looks at the text and the tree of a melody.  The events that it had
    are kept only if the start fails. -/
theorem initFrom_of_played {m other : Melody} (hacyclic : ∀ node ∈ m.nodes, node.Acyclic) (h : Has m.text m.nodes other)
    (options : Options) (source : Source) :
    (other.initFrom options source).2 = (m.initFrom options source).2 ∧
      ((m.initFrom options source).2 = .ok () →
        (m.initFrom options source).1.Twins (other.initFrom options source).1) := by
  obtain ⟨hsource, hresult⟩ := evaluate_played hacyclic h.tree (.ofOptions options) source
  have hshape := evaluate_keepsShape m.nodes (.ofOptions options) source
  have hshape' := evaluate_keepsShape other.nodes (.ofOptions options) source
  unfold initFrom Melody.reEvaluate
  dsimp only
  generalize (evaluate m.nodes (.ofOptions options) source).result = result,
    (evaluate other.nodes (.ofOptions options) source).result = result' at hresult
  cases hresult with
  | error failure => exact ⟨rfl, fun hok => by cases hok⟩
  | ok hevents =>
    refine ⟨rfl, fun _ => ⟨⟨h.text, hshape'.trans (h.tree.trans hshape.symm), rfl, hsource.symm, rfl, hevents⟩, ?_, rfl, rfl⟩⟩
    exact Node.forall_of_unplayedAll_eq .of_unplayed_eq hacyclic hshape

/-- **A start is a full reset.**  For a pattern without cycles, a start comes
    out the same after any history of starts and calls, whichever of them failed,
    as on the melody before it, such as one that has just been read; and if it
    succeeds, all calls that follow are answered alike, numbers compared. -/
theorem init_resets {m : Melody} (hacyclic : ∀ node ∈ m.nodes, node.Acyclic) (source : Source)
    (history : List Request) (options : Options) :
    ((m.worn source history).init options).2 = (m.init options).2 ∧
      ((m.init options).2 = .ok () → ∀ calls,
        List.Forall₂ Answer.Same ((m.init options).1.answers calls) (((m.worn source history).init options).1.answers calls)) := by
  obtain ⟨hresult, hleft⟩ := initFrom_of_played hacyclic (afterRequests_keeps_tree { m with source } history) options
    (.ofSeed (options.seed.getD 0))
  exact ⟨hresult, fun hok calls => (hleft hok).answers calls⟩

/-- A random pitch, a replayed repeat and a numeral, started again after a start
    that failed for want of a key. -/
theorem numerals_and_draws_reset :
    ∃ m failure, Melody.read "? [: (1,6) 0 :2] iv" = .ok m ∧
      ((m.afterRequests [.call (.get 4), .init { seed := some 5 }, .call (.take 9)]).init .bare).2 = .error failure ∧
      (m.init { seed := some 3 }).2 = .ok () ∧
      ∀ source calls, List.Forall₂ Answer.Same ((m.init { seed := some 3 }).1.answers calls)
        (((m.worn source [.call (.get 4), .init { seed := some 5 }, .call (.take 9), .init .bare]).init
          { seed := some 3 }).1.answers calls) := by
  have hcheck : readsAs "? [: (1,6) 0 :2] iv" (fun m =>
      m.nodes.all (Node.checkTo (!·.isCycle) 3) &&
        ((m.afterRequests [.call (.get 4), .init { seed := some 5 }, .call (.take 9)]).init .bare).2.toOption.isNone &&
        (m.init { seed := some 3 }).2.toOption.isSome) = true := by decide +kernel
  obtain ⟨m, hread, hm⟩ := exists_of_readsAs hcheck
  simp only [Bool.and_eq_true, List.all_eq_true] at hm
  obtain ⟨⟨hnodes, hfails⟩, hstarts⟩ := hm
  have hacyclic : ∀ node ∈ m.nodes, node.Acyclic := by
    intro node hnode
    refine (Node.everywhere_of_checkTo 3 (hnodes node hnode)).imp ?_
    intro other hother
    simpa using hother
  have hok : (m.init { seed := some 3 }).2 = .ok () := by
    cases hresult : (m.init { seed := some 3 }).2 with
    | error failure => simp [hresult, Except.toOption] at hstarts
    | ok done => rfl
  cases hbare : ((m.afterRequests [.call (.get 4), .init { seed := some 5 }, .call (.take 9)]).init .bare).2 with
  | ok done => simp [hbare, Except.toOption] at hfails
  | error failure =>
    refine ⟨m, failure, hread, hbare, hok, ?_⟩
    intro source calls
    exact (init_resets hacyclic source
      [.call (.get 4), .init { seed := some 5 }, .call (.take 9), .init .bare] { seed := some 3 }).2 hok calls

end NumberedMelody.Melody
