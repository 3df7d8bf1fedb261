/-
  NumberedMelody/Proofs/Melody/Counters.lean
  ==========================================
  **The counters of a melody.**  A melody is evaluated turn after turn, again or
  from a new start, with any options, and any of the turns may fail.  All along,
  every cycle that is run in its place has counted its visits since the pattern
  was read, and its values have taken their turns (`counters_count_visits`).
  The visits are those that a watch over evaluation logs (`run_watchAll`).
-/
import NumberedMelody.Proofs.Evaluation.Counting
import NumberedMelody.Proofs.Grammar.Written
import NumberedMelody.Proofs.Melody.History

namespace NumberedMelody.Melody

open NumberedMelody.Random (Source)
open Node (unplayedAll among?)
open Layout (listed)

/-! ### Turns -/

/-- One evaluation of the tree of a melody: once more, or from a start on a given stream. -/
inductive Turn where
  | again
  | start (options : Options) (source : Source)

/-- The melody that a turn leaves, whether it fails or not. -/
def afterTurn (m : Melody) : Turn → Melody
  | .again => m.reEvaluate.1
  | .start options source => (m.initFrom options source).1

def afterTurns (m : Melody) (turns : List Turn) : Melody := turns.foldl afterTurn m

/-- The evaluation of a turn, under watch. -/
def watchTurn (m : Melody) : Turn → Watched (List Node) (List Event)
  | .again => watchAll m.nodes (.ofOptions m.start) m.source
  | .start options source => watchAll m.nodes (.ofOptions options) source

/-- All that is visited, turn after turn. -/
def visitsOver (m : Melody) : List Turn → List Path
  | [] => []
  | turn :: more => (m.watchTurn turn).visits ++ (m.afterTurn turn).visitsOver more

theorem nodes_initFrom (m : Melody) (options : Options) (source : Source) :
    (m.initFrom options source).1.nodes = (evaluate m.nodes (.ofOptions options) source).tree := by
  obtain ⟨hevaluated, -⟩ := reEvaluate_leaves { m with source, start := options, cycle := 0, cursor := 0 }
  unfold initFrom
  simp only
  split
  · next left heq =>
    rw [heq] at hevaluated
    exact hevaluated
  · exact hevaluated

/-- What is watched is the evaluation that the melody goes through. -/
theorem nodes_afterTurn (m : Melody) (turn : Turn) : (m.afterTurn turn).nodes = (m.watchTurn turn).run.tree := by
  cases turn with
  | again => rw [afterTurn, watchTurn, run_watchAll, m.reEvaluate_leaves.1]
  | start options source => rw [afterTurn, watchTurn, run_watchAll, nodes_initFrom]

theorem watchTurn_tallies (m : Melody) (turn : Turn) :
    (m.watchTurn turn).Tallies (listed .value 0 m.nodes) (listed .value 0) := by
  cases turn with
  | again => exact watchAll_tallies ..
  | start options source => exact watchAll_tallies ..

/-- The visits of all turns account for the tree that is left. -/
theorem visitsOver_tally (turns : List Turn) :
    ∀ m : Melody, Tally (listed .value 0 m.nodes) (listed .value 0 (m.afterTurns turns).nodes) (m.visitsOver turns) := by
  induction turns with
  | nil =>
    intro m
    exact .refl _
  | cons turn more ih =>
    intro m
    have hturn := m.watchTurn_tallies turn
    unfold Watched.Tallies at hturn
    rw [← nodes_afterTurn] at hturn
    exact hturn.trans (ih (m.afterTurn turn))

/-! ### Counters -/

/-- A cycle without values yields nothing. -/
theorem realize_empty_cycle (text : String) (visits : Nat) (context : Context) (source : Source) :
    realize (.cycle text [] visits) context source = ⟨.cycle text [] visits, context, source, .ok []⟩ := by
  rw [realize_eq_level]
  rfl

/-- **Counters count visits and survive everything.**  In a pattern that has been
    read, take any cycle that is run in its place, at any depth.  After any turns,
    failing ones among them, its counter is the number of its visits in all of
    them; and of the cycle and its values were visited, over and over, the cycle
    and then the value whose turn it was.  A cycle without values yields nothing. -/
theorem counters_count_visits {text : String} {nodes : List Node} (hread : readPattern text = .ok nodes)
    {path : Path} {written : String} {values : List Node} {start : Nat}
    (hplace : among? nodes path = some (.cycle written values start)) (turns : List Turn) :
    let m := ofNodes text nodes
    let count := (m.visitsOver turns).count path
    (values ≠ [] →
      (∃ values', among? (m.afterTurns turns).nodes path = some (.cycle written values' count) ∧
          unplayedAll values' = unplayedAll values) ∧
        nearest (beyond path (m.visitsOver turns)) =
          (List.range count).flatMap fun j => [[], [⟨.value, j % values.length⟩]]) ∧
      (values = [] → ∀ context source,
        realize (.cycle written values start) context source =
          ⟨.cycle written values start, context, source, .ok []⟩) := by
  intro m count
  constructor
  · intro hvalues
    have hpath : path ≠ [] := by
      rintro rfl
      cases hplace
    have hfresh : start = 0 := (Node.Everywhere.among (readPattern_textual hread) hplace).here
    have haccounted : Accounted (among? nodes path) (among? (m.afterTurns turns).nodes path)
        (beyond path (m.visitsOver turns)) := (visitsOver_tally turns m).among path hpath
    obtain ⟨later, hlater, hcounted⟩ := haccounted.of_some hplace
    obtain ⟨⟨values', hcycle, hshape⟩, hturns⟩ := hcounted written values start rfl hvalues
    rw [count_beyond] at hcycle hturns
    subst hfresh
    rw [Nat.zero_add] at hcycle
    refine ⟨⟨values', hlater.trans (congrArg some hcycle), hshape⟩, ?_⟩
    simpa only [turnsFrom, Nat.zero_add] using hturns
  · rintro rfl context source
    exact realize_empty_cycle ..

/-- A cycle of so many values that has not been visited yet. -/
def isFreshCycle (length : Nat) : Option Node → Bool
  | some (.cycle _ values visits) => values.length == length && visits == 0
  | _ => false

theorem exists_of_isFreshCycle {length : Nat} {found : Option Node} (h : isFreshCycle length found = true) :
    ∃ written values, found = some (.cycle written values 0) ∧ values.length = length := by
  unfold isFreshCycle at h
  split at h
  · next written values visits =>
    simp only [Bool.and_eq_true, beq_iff_eq] at h
    obtain ⟨hlength, rfl⟩ := h
    exact ⟨written, values, rfl, hlength⟩
  · cases h

/-- A cycle in a cycle in a repeat: one visit in each of three turns, of which
    the first fails after it, for want of a key. -/
theorem nested_cycle_counts_on :
    let inner : Path := [⟨.value, 0⟩, ⟨.value, 1⟩, ⟨.value, 1⟩]
    let turns : List Turn := [.start .bare (.ofSeed 0), .start {} (.ofSeed 1), .again]
    ∃ nodes written values values' failure, readPattern "(: <0 <1 2>> :2) iv" = .ok nodes ∧
      let m := ofNodes "(: <0 <1 2>> :2) iv" nodes
      (m.initFrom .bare (.ofSeed 0)).2 = .error failure ∧
      among? nodes inner = some (.cycle written values 0) ∧ values.length = 2 ∧
      among? (m.afterTurns turns).nodes inner = some (.cycle written values' 3) ∧
      nearest (beyond inner (m.visitsOver turns)) = [[], [⟨.value, 0⟩], [], [⟨.value, 1⟩], [], [⟨.value, 0⟩]] := by
  intro inner turns
  have hcheck : (readPattern "(: <0 <1 2>> :2) iv").toOption.any (fun nodes =>
      let m := ofNodes "(: <0 <1 2>> :2) iv" nodes
      (m.initFrom .bare (.ofSeed 0)).2.toOption.isNone && isFreshCycle 2 (among? nodes inner) &&
        (m.visitsOver turns).count inner == 3) = true := by decide +kernel
  obtain ⟨nodes, hread, hnodes⟩ := eq_ok_of_any hcheck
  simp only [Bool.and_eq_true, beq_iff_eq] at hnodes
  obtain ⟨⟨hfails, hfresh⟩, hcount⟩ := hnodes
  obtain ⟨written, values, hplace, hlength⟩ := exists_of_isFreshCycle hfresh
  have hvalues : values ≠ [] := by
    rw [← List.length_pos_iff, hlength]
    exact Nat.two_pos
  obtain ⟨⟨values', hcounted, -⟩, hturns⟩ := (counters_count_visits hread hplace turns).1 hvalues
  rw [hcount] at hcounted hturns
  rw [hlength] at hturns
  cases hresult : ((ofNodes "(: <0 <1 2>> :2) iv" nodes).initFrom .bare (.ofSeed 0)).2 with
  | ok done => simp [hresult, Except.toOption] at hfails
  | error failure =>
    exact ⟨nodes, written, values, values', failure, hread, hresult, hplace, hlength, hcounted, hturns⟩

end NumberedMelody.Melody
