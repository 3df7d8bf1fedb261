/-
  NumberedMelody/Proofs/Melody/Periodic.lean
  ==========================================
  **Stateless patterns are periodic.**  Two melodies go on alike from the same
  start and source if their trees differ in kept chords alone; their numbers of
  cycles and their cursors may differ (`Alike`).  A melody is settled when
  evaluating any melody like it hands back another one.  No call on a settled
  melody leads away from it, and so does no history of calls
  (`stateless_periodic`).
-/
import NumberedMelody.Proofs.Evaluation.PlayedTrees
import NumberedMelody.Proofs.Evaluation.Stateless
import NumberedMelody.Proofs.Melody.Looping
import NumberedMelody.Proofs.Melody.Requests

namespace NumberedMelody.Melody

open NumberedMelody.Random (Source)
open Node (unplayedAll)

/-! ### Melodies that go on alike -/

/-- The tree of one pattern, whatever chords its numerals keep, the same start
    and source, and events that compare equal. -/
structure Alike (m other : Melody) : Prop where
  text : other.text = m.text
  nodes : unplayedAll other.nodes = unplayedAll m.nodes
  start : other.start = m.start
  source : other.source = m.source
  initialized : other.initialized = m.initialized
  events : List.Forall₂ Event.Same m.events other.events

variable {m other : Melody}

theorem Alike.refl (m : Melody) : m.Alike m :=
  ⟨rfl, rfl, rfl, rfl, rfl, Event.congruence_same.refl_list m.events⟩

theorem Alike.moved (h : m.Alike other) (cycle cursor cycle' cursor' : Nat) :
    (m.moved cycle cursor).Alike (other.moved cycle' cursor') :=
  ⟨h.text, h.nodes, h.start, h.source, h.initialized, h.events⟩

theorem Alike.cycleLength (h : m.Alike other) : other.cycleLength = m.cycleLength := by
  unfold Melody.cycleLength
  rw [isEmpty_eq_of_rel h.events, h.text, h.events.length_eq]

theorem Alike.eventAt (h : m.Alike other) (index : Nat) :
    SameResult Event.Same (m.eventAt index) (other.eventAt index) := by
  have hplace := rel_getElem? h.events (index % other.events.length)
  unfold Melody.eventAt
  rw [h.events.length_eq, h.text]
  generalize m.events[index % other.events.length]? = e, other.events[index % other.events.length]? = e' at hplace
  cases hplace with
  | none => exact .error _
  | some he => exact .ok he

/-- Without cycles in the tree, an evaluation comes out alike. -/
theorem Alike.reEvaluate (h : m.Alike other) (hacyclic : ∀ node ∈ m.nodes, node.Acyclic) :
    other.reEvaluate.2 = m.reEvaluate.2 ∧ m.reEvaluate.1.Alike other.reEvaluate.1 := by
  obtain ⟨hsource, hresult⟩ := evaluate_played hacyclic h.nodes (.ofOptions m.start) m.source
  have htree : unplayedAll (evaluate other.nodes (.ofOptions m.start) m.source).tree =
      unplayedAll (evaluate m.nodes (.ofOptions m.start) m.source).tree := by
    rw [evaluate_keepsShape, evaluate_keepsShape, h.nodes]
  unfold Melody.reEvaluate
  rw [h.start, h.source]
  dsimp only
  generalize (evaluate m.nodes (.ofOptions m.start) m.source).result = result,
    (evaluate other.nodes (.ofOptions m.start) m.source).result = result' at hresult
  cases hresult with
  | ok hevents => exact ⟨rfl, h.text, htree, rfl, hsource.symm, h.initialized, hevents⟩
  | error failure => exact ⟨rfl, h.text, htree, rfl, hsource.symm, h.initialized, h.events⟩

/-! ### Settled melodies -/

/-- A melody that holds events, and holds them again after any evaluation. -/
structure Settled (m : Melody) : Prop where
  initialized : m.initialized = true
  sounds : m.events ≠ []
  again : ∀ {other}, m.Alike other → other.reEvaluate.2 = .ok () ∧ m.Alike other.reEvaluate.1

theorem Settled.inCycle (h : m.Settled) (hother : m.Alike other) (cycle : Nat) :
    (other.inCycle cycle).2 = .ok () ∧ m.Alike (other.inCycle cycle).1 := by
  unfold Melody.inCycle
  split
  · exact ⟨rfl, hother⟩
  · exact h.again (hother.moved m.cycle m.cursor cycle other.cursor)

theorem eventAt_of_sounds (h : m.events ≠ []) (index : Nat) :
    ∃ e, m.events[index % m.events.length]? = some e ∧ m.eventAt index = .ok e := by
  have hlt : index % m.events.length < m.events.length := Nat.mod_lt _ (List.length_pos_iff.mpr h)
  refine ⟨_, List.getElem?_eq_getElem hlt, ?_⟩
  simp only [eventAt, List.getElem?_eq_getElem hlt]

theorem Settled.get (h : m.Settled) (hother : m.Alike other) (index : Nat) :
    m.Alike (other.get index).1 ∧ SameResult Event.Same (m.eventAt index) (other.get index).2 := by
  have hready : other.initialized = true := hother.initialized.trans h.initialized
  have hlength : other.cycleLength = .ok m.events.length := by
    have hempty : m.events.isEmpty = false := by simpa using h.sounds
    rw [hother.cycleLength, Melody.cycleLength, hempty]
    rfl
  obtain ⟨hok, hleft⟩ := h.inCycle hother (index / m.events.length)
  unfold Melody.get
  simp only [hready, hlength, Bool.not_true, Bool.false_eq_true, if_false]
  rcases hcycle : other.inCycle (index / m.events.length) with ⟨left, result⟩
  rw [hcycle] at hok hleft
  obtain rfl : result = .ok () := hok
  exact ⟨hleft, hleft.eventAt index⟩

/-- **No call leads away from a settled melody.** -/
theorem Settled.lasting (h : m.Settled) : Lasting (fun _ => False) m.Alike where
  reEvaluate := fun hother => (h.again hother).2
  moved := fun hother => hother.moved m.cycle m.cursor
  started := fun _ hfalse => hfalse.elim
  initialized := fun hother =>
    ⟨hother.text, hother.nodes, hother.start, hother.source, h.initialized.symm, hother.events⟩

/-! ### Stateless patterns -/

/-- What evaluating a stateless tree once leaves, it leaves every time. -/
theorem settled_of_init {fresh : Melody} {options : Options} (hstateless : ∀ node ∈ fresh.nodes, node.Stateless)
    (hinit : fresh.init options = (m, .ok ())) (hsounds : m.events ≠ []) : m.Settled := by
  have hsource := evaluate_stateless_source hstateless options (.ofSeed (options.seed.getD 0))
  have hshape := evaluate_keepsShape fresh.nodes (.ofOptions options) (.ofSeed (options.seed.getD 0))
  have hacyclic : ∀ node ∈ fresh.nodes, node.Acyclic := fun node hnode => (hstateless node hnode).acyclic
  unfold init Melody.reEvaluate at hinit
  simp only [hsource] at hinit
  cases hresult : (evaluate fresh.nodes (.ofOptions options) (.ofSeed (options.seed.getD 0))).result with
  | error failure =>
    simp only [hresult] at hinit
    cases hinit
  | ok events =>
    simp only [hresult, Prod.mk.injEq, and_true] at hinit
    subst hinit
    refine ⟨rfl, hsounds, ?_⟩
    intro other hother
    -- the melody is like the one with the tree as it was at first, which evaluates to it again
    let before : Melody := { fresh with
      source := .ofSeed (options.seed.getD 0), start := options, events, initialized := true }
    have hbefore : before.Alike other :=
      ⟨hother.text, hother.nodes.trans hshape, hother.start, hother.source, hother.initialized, hother.events⟩
    obtain ⟨hok, hleft⟩ := hbefore.reEvaluate hacyclic
    have hagain : before.reEvaluate =
        ({ before with nodes := (evaluate fresh.nodes (.ofOptions options) before.source).tree, cursor := 0 }, .ok ()) := by
      unfold Melody.reEvaluate
      simp only [before, hresult, hsource]
    rw [hagain] at hok hleft
    exact ⟨hok, hleft.text, hleft.nodes, hleft.start, hleft.source, hleft.initialized, hleft.events⟩

theorem play_eq_ok {text : String} {options : Options} (h : play text options = .ok m) :
    ∃ nodes, readPattern text = .ok nodes ∧ (ofNodes text nodes).init options = (m, .ok ()) := by
  obtain ⟨fresh, hread, hinit⟩ := bind_eq_ok.mp h
  obtain ⟨nodes, hnodes, rfl⟩ := map_eq_ok.mp hread
  refine ⟨nodes, hnodes, ?_⟩
  split at hinit
  · next played heq =>
    obtain rfl := Except.ok.inj hinit
    exact heq
  · cases hinit

/-- **Stateless patterns are periodic under any order of access.**  Once such a
    pattern plays and holds events, it holds events that compare equal to these
    after any history of calls, and every index finds one that compares equal to
    the event at its remainder. -/
theorem stateless_periodic {text : String} {options : Options} {nodes : List Node}
    (hread : readPattern text = .ok nodes) (hstateless : ∀ node ∈ nodes, node.Stateless)
    (hplay : play text options = .ok m) (hsounds : m.events ≠ []) (calls : List Call) :
    List.Forall₂ Event.Same m.events (m.afterCalls calls).events ∧
      ∀ index, ∃ e e', m.events[index % m.events.length]? = some e ∧
        ((m.afterCalls calls).get index).2 = .ok e' ∧ e.Same e' ∧
        List.Forall₂ Event.Same m.events ((m.afterCalls calls).get index).1.events := by
  obtain ⟨nodes', hread', hinit⟩ := play_eq_ok hplay
  obtain rfl := Except.ok.inj (hread.symm.trans hread')
  have hsettled : m.Settled := settled_of_init hstateless hinit hsounds
  have hafter : m.Alike (m.afterCalls calls) := hsettled.lasting.afterCalls calls (.refl m)
  refine ⟨hafter.events, ?_⟩
  intro index
  obtain ⟨e, hplace, he⟩ := eventAt_of_sounds hsounds index
  obtain ⟨hleft, hget⟩ := hsettled.get hafter index
  obtain ⟨e', he', hsame⟩ := hget.exists_of_ok he
  exact ⟨e, e', hplace, he', hsame, hleft.events⟩

/-- A variable inside a replayed repeat, a sum of lists and a numeral, read out
    of order. -/
theorem repeats_sums_and_numerals_periodic :
    ∃ nodes m, readPattern "A=(0 2) [: A 1 :2] (0 1)+(1 2) iv" = .ok nodes ∧ (∀ node ∈ nodes, node.Stateless) ∧
      play "A=(0 2) [: A 1 :2] (0 1)+(1 2) iv" {} = .ok m ∧ m.events ≠ [] ∧
      List.Forall₂ Event.Same m.events (m.afterCalls [.get 35, .walk 3, .take 2, .reEvaluate]).events := by
  have hcheck : (readPattern "A=(0 2) [: A 1 :2] (0 1)+(1 2) iv").toOption.any
      (·.all (Node.checkTo (!·.isStateful) 4)) = true := by decide +kernel
  have hplays : (play "A=(0 2) [: A 1 :2] (0 1)+(1 2) iv" {}).toOption.any (!·.events.isEmpty) = true := by
    decide +kernel
  obtain ⟨nodes, hread, hnodes⟩ := eq_ok_of_any hcheck
  obtain ⟨m, hplay, hevents⟩ := eq_ok_of_any hplays
  have hstateless : ∀ node ∈ nodes, node.Stateless := by
    intro node hnode
    exact Node.stateless_of_checkTo 4 (List.all_eq_true.mp hnodes node hnode)
  have hsounds : m.events ≠ [] := by simpa using hevents
  exact ⟨nodes, m, hread, hstateless, hplay, hsounds,
    (stateless_periodic hread hstateless hplay hsounds [.get 35, .walk 3, .take 2, .reEvaluate]).1⟩

end NumberedMelody.Melody
