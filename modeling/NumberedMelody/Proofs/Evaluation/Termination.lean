/-
  NumberedMelody/Proofs/Evaluation/Termination.lean
  =================================================
  **Evaluation comes to an end.**  A use of a variable runs a tree that is not
  inside the node, and assignments inside the very trees that are run change
  which tree that is.  Every value that is ever stored under a name is, however,
  of the rank of the name (`ranking`), so a run goes down either in the rank of
  the names that its node uses or in the depth of the node.  Where no name leads
  back to itself evaluation thus has a derivation without any limit, and the
  limit on variables within variables is never met (`acyclic_terminates`).
-/
import NumberedMelody.Proofs.Evaluation.Derivation
import NumberedMelody.Proofs.Evaluation.Invariant
import NumberedMelody.Proofs.Evaluation.SideBySide
import NumberedMelody.Proofs.Tree.Naming

namespace NumberedMelody

open NumberedMelody.Random (Source)
open Node (unplayedAll)

/-! ### Contexts by rank -/

section Ranking

variable {rank : String → Nat}

/-- Nodes that use names of a rank below a bound. -/
abbrev Node.RankedBelow (rank : String → Nat) (bound : Nat) : Node → Prop := Node.Everywhere (Node.Ranked rank bound)

/-- What is stored under a name uses names of a lower rank, and the limit is not met. -/
def ranking (rank : String → Nat) : Domain where
  context := fun context => ∀ name value, context.stored.lookup name = some value → value.RankedBelow rank (rank name)
  failure := (· ≠ .nestedTooDeep)

theorem ranking_assign {context : Context} (h : (ranking rank).context context) {name : String} {value : Node}
    (hvalue : value.RankedBelow rank (rank name)) : (ranking rank).context (context.assign name value) := by
  intro other stored hstored
  rcases Context.lookup_assign hstored with ⟨rfl, rfl⟩ | hbefore
  · exact hvalue
  · exact h other stored hbefore

/-- Events use no names. -/
theorem rankedBelow_event (bound : Nat) (e : Event) : (Node.event e).RankedBelow rank bound :=
  .leaf ⟨fun name hname => (by cases hname), trivial⟩ rfl

theorem ranking_lawful (rank : String → Nat) : (ranking rank).Lawful where
  inside := by
    intro context h overrides
    unfold Context.inside
    split
    · exact h
    · exact h
  after := fun h _ => h
  nextMeasure := fun h => h
  played := by
    intro context h name text events
    refine ranking_assign h (.intro ⟨fun name hname => (by cases hname), trivial⟩ ?_)
    intro child hchild
    obtain ⟨e, -, rfl⟩ := List.mem_map.mp hchild
    exact rankedBelow_event _ e
  ordinary := by
    rintro failure hordinary rfl
    cases hordinary

theorem within_ranked (rank : String → Nat) (bound : Nat) :
    Realizer.Within (Node.RankedBelow rank bound) (Node.RankedBelow rank bound) :=
  Realizer.within_everywhere Node.Ranked.of_unplayed_eq fun e => (rankedBelow_event bound e).here

/-- Of a lower rank than a bound, by how much it may be. -/
def Node.RankedUnder (rank : String → Nat) (bound : Nat) (node : Node) : Prop :=
  ∃ lower < bound, node.RankedBelow rank lower

/-- A use of a name goes down in rank. -/
theorem ranking_admits (bound : Nat) :
    (ranking rank).Admits (Node.RankedBelow rank bound) (Node.RankedUnder rank bound) where
  assign := fun hnode hcontext => ranking_assign hcontext (Node.everywhere_ranked_value hnode)
  numeral := by
    rintro r context - - failure hfailure rfl
    cases r.numeral.chord_blames context.options _ hfailure
  found := fun {_ name _ _} hnode hname hcontext hvalue => ⟨rank name, hnode.here.used name hname, hcontext name _ hvalue⟩
  unknown := by
    rintro _ _ _ - - - - - ⟨⟩

/-! ### Runs by rank -/

/-- **Limits above the rank are all alike**, and are not met. -/
theorem nested_follows (bound : Nat) : ∀ {limit limit' : Nat}, bound < limit → bound < limit' →
    Realizer.Follows (ranking rank) (Node.RankedBelow rank bound) (Realizer.nested limit) (Realizer.nested limit') := by
  induction bound using Nat.strongRecOn with
  | ind bound ih =>
    intro limit limit' hlimit hlimit'
    obtain ⟨limit, rfl⟩ := Nat.exists_eq_succ_of_ne_zero (Nat.ne_of_gt (Nat.zero_lt_of_lt hlimit))
    obtain ⟨limit', rfl⟩ := Nat.exists_eq_succ_of_ne_zero (Nat.ne_of_gt (Nat.zero_lt_of_lt hlimit'))
    refine Realizer.Follows.nested (ranking_lawful rank) (ranking_admits bound) (within_ranked rank bound) ?_
    rintro value context source ⟨lower, hlower, hvalue⟩ hcontext
    exact ih lower hlower (by omega) (by omega) value context source hvalue hcontext

/-- **Evaluation is derived**, by going down in rank or in depth. -/
theorem evaluates_realize {bound : Nat} (hbound : bound < nestingLimit - 1) :
    ∀ (depth : Nat) (node : Node) (context : Context) (source : Source), node.RankedBelow rank bound →
      node.depth ≤ depth → (ranking rank).context context →
      Evaluates node context source (realize node context source) := by
  induction bound using Nat.strongRecOn with
  | ind bound ihBound =>
    intro depth
    induction depth with
    | zero =>
      intro node context source _ hdepth
      have := node.depth_pos
      omega
    | succ depth ihDepth =>
      intro node context source hnode hdepth hcontext
      let calls : Node → Context → Source → Prop := fun node context _ => (ranking rank).context context ∧
        (Realizer.upTo (Node.RankedBelow rank bound) depth node ∨ node.RankedUnder rank bound)
      refine .level calls realize ?_ ?_
      · rintro node context source ⟨hcontext, ⟨hnode, hdepth⟩ | ⟨lower, hlower, hnode⟩⟩
        · exact ihDepth node context source hnode hdepth hcontext
        · exact ihBound lower hlower (Nat.lt_trans hlower hbound) _ node context source hnode (Nat.le_refl _) hcontext
      · intro r hr
        have hlimit : nestingLimit - 1 < nestingLimit := by decide
        -- on the nodes inside and on stored values, the realizer is evaluation
        have hinner : Realizer.Follows (ranking rank) (Realizer.upTo (Node.RankedBelow rank bound) depth) r realize := by
          intro node context source hnode hcontext
          rw [hr node context source ⟨hcontext, .inl hnode⟩]
          exact nested_follows bound (Nat.lt_trans hbound hlimit) (Nat.lt_trans hbound hlimit) node context source
            hnode.1 hcontext
        have hstored : Realizer.Follows (ranking rank) (Node.RankedUnder rank bound) r
            (Realizer.nested (nestingLimit - 1)) := by
          rintro node context source ⟨lower, hlower, hnode⟩ hcontext
          rw [hr node context source ⟨hcontext, .inr ⟨lower, hlower, hnode⟩⟩]
          have hlow := Nat.lt_trans hlower hbound
          exact nested_follows lower (Nat.lt_trans hlow hlimit) hlow node context source hnode hcontext
        rw [realize_eq_level]
        have hadmits : (ranking rank).Admits (Realizer.upTo (Node.RankedBelow rank bound) (depth + 1))
            (Node.RankedUnder rank bound) := (ranking_admits bound).imp fun _ hnode => hnode.1
        exact (Realizer.Follows.level (ranking_lawful rank) hadmits hinner hstored realize_keepsShape
          (Realizer.within_upTo (within_ranked rank bound) depth) node context source ⟨hnode, hdepth⟩ hcontext).eq

end Ranking

/-! ### Patterns without circles -/

/-- A text whose names do not lead back to themselves, however often its nodes
    have been visited. -/
theorem evaluatesAll_of_acyclic {text : String} {nodes visited : List Node} (hread : readPattern text = .ok nodes)
    (hacyclic : ¬ Circular nodes) (hvisited : unplayedAll visited = unplayedAll nodes) {context : Context}
    (hstored : context.stored = []) (source : Source) :
    EvaluatesAll visited context source (evaluate visited context source) ∧
      (evaluate visited context source).result ≠ .error .nestedTooDeep := by
  have hranked : ∀ node ∈ visited, node.RankedBelow (rank nodes) 27 :=
    (within_ranked (rank nodes) 27).visitsAll (everywhere_ranked hread hacyclic) hvisited
  have hcontext : (ranking (rank nodes)).context context := by
    intro name value hvalue
    rw [hstored] at hvalue
    cases hvalue
  have hbound : 27 < nestingLimit - 1 := by decide
  have hfollows : Realizer.Follows (ranking (rank nodes)) (Node.RankedBelow (rank nodes) 27) realize realize :=
    nested_follows 27 (by decide) (by decide)
  constructor
  · refine ⟨fun node context _ => node.RankedBelow (rank nodes) 27 ∧ (ranking (rank nodes)).context context, realize,
      ?_, ?_⟩
    · rintro node context source ⟨hnode, hcontext⟩
      exact evaluates_realize hbound _ node context source hnode (Nat.le_refl _) hcontext
    · intro r hr
      have hsame : Realizer.Follows (ranking (rank nodes)) (Node.RankedBelow (rank nodes) 27) r realize := by
        intro node context source hnode hcontext
        rw [hr node context source ⟨hnode, hcontext⟩]
        exact hfollows node context source hnode hcontext
      rw [(hsame.inOrder visited context source hranked hcontext).eq]
      rfl
  · intro hdeep
    have hrun := (hfollows.inOrder visited context source hranked hcontext).withResult fun steps =>
      (assignDurations_blames steps).imp fun _ => (ranking_lawful (rank nodes)).ordinary
    exact hrun.blames _ hdeep rfl

/-- **Evaluation of acyclic variables terminates**: what is evaluated has a
    derivation from the values of variables and the nodes inside, and does not
    fail for want of a limit. -/
theorem acyclic_terminates {text : String} {nodes : List Node} (hread : readPattern text = .ok nodes)
    (hacyclic : ¬ Circular nodes) {context : Context}
    (hstored : context.stored = []) (source : Source) :
    EvaluatesAll nodes context source (evaluate nodes context source) ∧
      (evaluate nodes context source).result ≠ .error .nestedTooDeep :=
  evaluatesAll_of_acyclic hread hacyclic rfl hstored source

/-- A value that assigns another variable and uses it, and one that uses both. -/
theorem nested_assignments_terminate :
    ∃ nodes events, readPattern "B=3 A=(B=(0 2) B 1) C=[A B] [: C :2]" = .ok nodes ∧ ¬ Circular nodes ∧
      EvaluatesAll nodes (.ofOptions {}) (.ofSeed 0) (evaluate nodes (.ofOptions {}) (.ofSeed 0)) ∧
      (evaluate nodes (.ofOptions {}) (.ofSeed 0)).result = .ok events ∧ events.length = 8 := by
  let height (name : String) : Nat := if name = "A" then 1 else if name = "C" then 2 else 0
  have hcheck : (readPattern "B=3 A=(B=(0 2) B 1) C=[A B] [: C :2]").toOption.any (fun nodes =>
      nodes.all (Node.checkTo (Node.descendsTo height 4) 5) &&
        (evaluate nodes (.ofOptions {}) (.ofSeed 0)).result.toOption.any (·.length = 8)) = true := by decide +kernel
  obtain ⟨nodes, hread, hnodes⟩ := eq_ok_of_any hcheck
  simp only [Bool.and_eq_true, List.all_eq_true] at hnodes
  obtain ⟨hdescends, hlength⟩ := hnodes
  obtain ⟨events, hevents, hlength⟩ := eq_ok_of_any hlength
  have hacyclic : ¬ Circular nodes := by
    refine not_circular_of_descends height ?_
    intro node hnode
    exact (Node.everywhere_of_checkTo 5 (hdescends node hnode)).imp fun _ => Node.descends_of_descendsTo
  have hstored : (Context.ofOptions {}).stored = [] := rfl
  obtain ⟨hderived, -⟩ := acyclic_terminates hread hacyclic hstored (.ofSeed 0)
  exact ⟨nodes, events, hread, hacyclic, hderived, hevents, of_decide_eq_true hlength⟩

end NumberedMelody
