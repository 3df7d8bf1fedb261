/-
  NumberedMelody/Proofs/Melody/Causes.lean
  ========================================
  **What a pattern can fail of.**  Text that cannot be read fails at once.
  After that there are few causes left: nothing to share a duration among, to
  count, to deal or to sound; arithmetic; the variable of an expression; a
  numeral, if the options lack a key or a scale; and a name that the text uses,
  if the options bind nothing to it (`Failure.Expected`).  Every evaluation of a
  tree that was read keeps to them (`causing`), and so does every call on a
  melody, whatever was called before (`failures_have_causes`).

  Calls that do not return are something else.  A name that stands for itself
  is used without end, which nothing stops but the end of the call stack: such a
  pattern has no first cycle and no failure either.  Only a name that leads back
  to itself can do so.
-/
import NumberedMelody.Proofs.Evaluation.Approximation
import NumberedMelody.Proofs.Evaluation.Termination
import NumberedMelody.Proofs.Melody.History

namespace NumberedMelody

open NumberedMelody.Random (Source)
open Node (unplayedAll)

/-! ### Causes -/

/-- The name is used somewhere in the nodes. -/
def UsedIn (nodes : List Node) (name : String) : Prop :=
  ∃ node ∈ nodes, ∃ inside, node.Contains inside ∧ name ∈ inside.used

/-- The ways in which nodes may fail against options. -/
inductive Failure.Expected (nodes : List Node) (options : Options) : Failure → Prop where
  | ordinary {failure : Failure} (h : failure.Ordinary) : Expected nodes options failure
  | emptyPattern (text : String) : Expected nodes options (.emptyPattern text)
  | unresolvedNumeral (text : String) (h : options.key = none ∨ options.scale = none) :
    Expected nodes options (.unresolvedNumeral text)
  | unknownVariable {name : String} (hused : UsedIn nodes name) (hunbound : options.bindings.lookup name = none) :
    Expected nodes options (.unknownVariable name)

/-- What a call on a pattern may come to besides a result: a failure, or the end of
    the call stack, where a name that leads back to itself is used without end. -/
def Failure.OrEndless (nodes : List Node) (options : Options) (failure : Failure) : Prop :=
  failure.Expected nodes options ∨ failure = .nestedTooDeep ∧ Circular nodes

/-- Options as they can become inside a pattern. -/
structure Options.Become (options later : Options) : Prop where
  key : later.key = none → options.key = none
  scale : later.scale = none → options.scale = none
  bindings : later.bindings = options.bindings

theorem Options.Become.overridden {options later : Options} (h : options.Become later) (overrides : Overrides) :
    options.Become (overrides.apply later) where
  key := fun hkey => h.key (Option.or_eq_none_iff.mp hkey).2
  scale := fun hscale => h.scale (Option.or_eq_none_iff.mp hscale).2
  bindings := h.bindings

/-- Numerals have symbols, and no other names are used. -/
structure Node.UsesOnly (names : String → Prop) (node : Node) : Prop where
  used : ∀ name ∈ node.used, names name
  legible : node.Legible

theorem Node.UsesOnly.of_unplayed_eq {names : String → Prop} {node other : Node} (h : node.UsesOnly names)
    (hvisits : other.unplayed = node.unplayed) : other.UsesOnly names := by
  have hlegible : ∀ node : Node, node.unplayed.Legible ↔ node.Legible := by
    intro node
    cases node <;> exact Iff.rfl
  constructor
  · rw [← used_unplayed, hvisits, used_unplayed]
    exact h.used
  · rw [← hlegible, hvisits, hlegible]
    exact h.legible

theorem readPattern_usesOnly {text : String} {nodes : List Node} (h : readPattern text = .ok nodes) :
    ∀ node ∈ nodes, node.Everywhere (Node.UsesOnly (UsedIn nodes)) := by
  intro node hnode
  rw [Node.everywhere_iff_contains]
  intro inside hinside
  constructor
  · intro name hname
    exact ⟨node, hnode, inside, hinside, hname⟩
  · exact ((readPattern_readable h node hnode).of_contains hinside).here.legible

/-! ### Evaluation -/

section Evaluation

variable {nodes : List Node} {options : Options} {limited : Prop}

/-- Nodes that use the names of some nodes. -/
abbrev Node.Among (nodes : List Node) : Node → Prop := Node.Everywhere (Node.UsesOnly (UsedIn nodes))

/-- Contexts that come from the options, and the causes there are, where variables
    may be limited. -/
def causing (nodes : List Node) (options : Options) (limited : Prop) : Domain where
  context := fun context => options.Become context.options ∧ options.Become context.start ∧
    ∀ name value, context.stored.lookup name = some value → value.Among nodes
  failure := fun failure => failure.Expected nodes options ∨ failure = .nestedTooDeep ∧ limited

theorem causing_assign {context : Context} (h : (causing nodes options limited).context context) {name : String}
    {value : Node} (hvalue : value.Among nodes) : (causing nodes options limited).context (context.assign name value) := by
  obtain ⟨hoptions, hstart, hstored⟩ := h
  refine ⟨hoptions, hstart, ?_⟩
  intro other stored hlookup
  rcases Context.lookup_assign hlookup with ⟨rfl, rfl⟩ | hbefore
  · exact hvalue
  · exact hstored other stored hbefore

theorem usesOnly_event (names : String → Prop) (e : Event) : (Node.event e).UsesOnly names :=
  ⟨fun name hname => (by cases hname), trivial⟩

theorem causing_lawful (nodes : List Node) (options : Options) (limited : Prop) :
    (causing nodes options limited).Lawful where
  inside := by
    rintro context ⟨hoptions, hstart, hstored⟩ overrides
    unfold Context.inside
    split
    · exact ⟨hoptions, hstart, hstored⟩
    · exact ⟨hoptions.overridden overrides, hstart, hstored⟩
  after := by
    rintro context ⟨hoptions, hstart, hstored⟩ change
    refine ⟨?_, hstart, hstored⟩
    cases change <;> exact ⟨hoptions.key, hoptions.scale, hoptions.bindings⟩
  nextMeasure := by
    rintro context ⟨-, hstart, hstored⟩
    exact ⟨hstart, hstart, hstored⟩
  played := by
    intro context h name text events
    refine causing_assign h (.intro ⟨fun name hname => (by cases hname), trivial⟩ ?_)
    intro child hchild
    obtain ⟨e, -, rfl⟩ := List.mem_map.mp hchild
    exact .leaf (usesOnly_event _ e) rfl
  ordinary := fun h => .inl (.ordinary h)

theorem within_among (nodes : List Node) : Realizer.Within (Node.Among nodes) (Node.Among nodes) :=
  Realizer.within_everywhere Node.UsesOnly.of_unplayed_eq (usesOnly_event _)

theorem causing_admits (nodes : List Node) (options : Options) (limited : Prop) :
    (causing nodes options limited).Admits (Node.Among nodes) (Node.Among nodes) where
  assign := fun hnode hcontext => causing_assign hcontext (hnode.inside _ (List.mem_singleton.mpr rfl))
  numeral := by
    rintro r context hnode ⟨hoptions, -, -⟩ failure hfailure
    obtain ⟨value, hvalue⟩ := RomanNumeral.Legible.exists_value hnode.here.legible
    cases r.numeral.chord_blames context.options _ hfailure with
    | unresolved hambient => exact .inl (.unresolvedNumeral r.numeral.text (hambient.imp hoptions.key hoptions.scale))
    | invalid hsymbols =>
      rw [hvalue] at hsymbols
      cases hsymbols
  found := fun _ _ hcontext hvalue => hcontext.2.2 _ _ hvalue
  unknown := by
    rintro node name context hnode hname ⟨hoptions, -, -⟩ - hunbound
    rw [hoptions.bindings] at hunbound
    exact .inl (.unknownVariable (hnode.here.used name hname) hunbound)

theorem causing_ofOptions (nodes : List Node) (options : Options) (limited : Prop) :
    (causing nodes options limited).context (.ofOptions options) := by
  have hsame : options.Become options := ⟨id, id, rfl⟩
  refine ⟨hsame, hsame, ?_⟩
  intro name value hvalue
  cases hvalue

/-- A limit on variables is one cause more, and the only one. -/
theorem nested_causing (nodes : List Node) (options : Options) (limit : Nat) :
    Realizer.Follows (causing nodes options True) (Node.Among nodes) (Realizer.nested limit) (Realizer.nested limit) := by
  induction limit with
  | zero =>
    intro node context source _ hcontext
    exact .failed hcontext (.inr ⟨rfl, trivial⟩)
  | succ limit ih =>
    exact .nested (causing_lawful nodes options True) (causing_admits nodes options True) (within_among nodes) ih

/-- What a pattern that was read, and perhaps evaluated before, can fail of. -/
theorem evaluate_blames {text : String} (hread : readPattern text = .ok nodes) {visited : List Node}
    (hvisited : unplayedAll visited = unplayedAll nodes) (options : Options) (source : Source) :
    Blames (Failure.OrEndless nodes options) (evaluate visited (.ofOptions options) source).result := by
  have hnodes := (within_among nodes).visitsAll (readPattern_usesOnly hread) hvisited
  have hrun := ((nested_causing nodes options nestingLimit).inOrder visited _ source hnodes
    (causing_ofOptions nodes options True)).withResult fun steps =>
      (assignDurations_blames steps).imp fun _ => (causing_lawful nodes options True).ordinary
  intro failure hfailure
  rcases hrun.blames failure hfailure with hexpected | ⟨rfl, -⟩
  · exact .inl hexpected
  · -- without circles the limit is not met
    refine .inr ⟨rfl, Classical.byContradiction fun hacyclic => ?_⟩
    exact (evaluatesAll_of_acyclic hread hacyclic hvisited rfl source).2 hfailure

/-- Where evaluation comes to an end without a limit, it fails as expected. -/
theorem derived_blames {text : String} (hread : readPattern text = .ok nodes) {visited : List Node}
    (hvisited : unplayedAll visited = unplayedAll nodes) {source : Source} {run : Run (List Node) (List Event)}
    (hrun : EvaluatesAll visited (.ofOptions options) source run) :
    Blames (Failure.Expected nodes options) run.result := by
  have hnodes := (within_among nodes).visitsAll (readPattern_usesOnly hread) hvisited
  have hstays := hrun.stays (causing_lawful nodes options False) (causing_admits nodes options False)
    (within_among nodes) hnodes (causing_ofOptions nodes options False)
  refine hstays.blames.imp ?_
  rintro failure (hexpected | ⟨-, hlimited⟩)
  · exact hexpected
  · exact hlimited.elim

end Evaluation

theorem readPattern_fails {text : String} {failure : Failure} (h : readPattern text = .error failure) :
    ∃ diagnosis, failure = .unreadable diagnosis := by
  unfold readPattern at h
  split at h
  · cases h
  · exact ⟨_, (Except.error.inj h).symm⟩
  · exact ⟨_, (Except.error.inj h).symm⟩

/-! ### No end -/

open Realizer (derived derived_of_level derived_of_not_ends Ends) in
/-- **A name that is assigned to itself and then used leaves the nodes without a run.** -/
theorem not_evaluatesAll_of_self_standing (written text' gap text name : String) (context : Context) (source : Source)
    (run : Run (List Node) (List Event)) :
    ¬ EvaluatesAll [.assignment written name false (.variable text' name), .blank gap, .variable text name]
      context source run := by
  intro hrun
  obtain ⟨hdeep, rfl⟩ := evaluatesAll_iff.mp hrun
  let assigned := context.assign name (.variable text' name)
  have hstored : assigned.stored.lookup name = some (.variable text' name) := by
    simp only [assigned, Context.assign, lookup_insert, if_true]
  have hnone : ¬ Ends (.variable text name) assigned source := by
    rintro ⟨run, hrun⟩
    exact not_evaluates_of_self_standing hstored hrun
  have hblank : derived (.blank gap) assigned source = ⟨.blank gap, assigned, source, .ok []⟩ :=
    derived_of_level fun _ => rfl
  refine hdeep ?_
  rw [Realizer.inOrder_assignment]
  simp only [Realizer.inOrder, hblank, derived_of_not_ends hnone, Run.andThen, Run.withTree, Run.withResult, assigned]
  rfl

/-! ### Melodies -/

namespace Melody

variable {nodes : List Node} {options : Options} {m : Melody}

/-- The melody plays a tree against options. -/
structure Plays (nodes : List Node) (options : Options) (m : Melody) : Prop where
  tree : unplayedAll m.nodes = unplayedAll nodes
  start : m.start = options
  initialized : m.initialized = true

theorem lasting_plays (nodes : List Node) (options : Options) : Lasting (fun _ => False) (Plays nodes options) where
  reEvaluate := fun {m} hm => ⟨m.unplayedAll_reEvaluate.trans hm.tree, m.reEvaluate_leaves.2.2.trans hm.start,
    m.reEvaluate_initialized.trans hm.initialized⟩
  moved := fun hm _ _ => ⟨hm.tree, hm.start, hm.initialized⟩
  started := fun _ hoptions => hoptions.elim
  initialized := fun hm => ⟨hm.tree, hm.start, rfl⟩

section Read

variable {text : String} (hread : readPattern text = .ok nodes)

include hread

theorem reEvaluate_blames (htree : unplayedAll m.nodes = unplayedAll nodes) (hstart : m.start = options) :
    Blames (Failure.OrEndless nodes options) m.reEvaluate.2 := by
  have hrun := evaluate_blames hread htree m.start m.source
  rw [hstart] at hrun
  rw [reEvaluate, hstart]
  cases hresult : (evaluate m.nodes (.ofOptions options) m.source).result with
  | error failure => exact .error (hrun failure hresult)
  | ok events => exact .ok ()

theorem Plays.inCycle (hm : Plays nodes options m) (cycle : Nat) :
    Blames (Failure.OrEndless nodes options) (m.inCycle cycle).2 := by
  unfold Melody.inCycle
  split
  · exact .ok ()
  · exact reEvaluate_blames (m := { m with cycle }) hread hm.tree hm.start

theorem Plays.get (hm : Plays nodes options m) (index : Nat) :
    Blames (Failure.OrEndless nodes options) (m.get index).2 := by
  have hempty : ∀ text, (Failure.emptyPattern text).OrEndless nodes options := fun text => .inl (.emptyPattern text)
  unfold Melody.get
  simp only [hm.initialized, Bool.not_true, Bool.false_eq_true, if_false]
  rw [cycleLength]
  split
  · next failure hlength =>
    split at hlength
    · cases hlength
      exact .error (hempty m.text)
    · cases hlength
  · next length _ =>
    have hcycle := hm.inCycle hread (index / length)
    split
    · next left failure heq =>
      rw [heq] at hcycle
      exact .error (hcycle failure rfl)
    · next left _ =>
      rw [eventAt]
      split
      · exact .ok _
      · exact .error (hempty left.text)

theorem Plays.takeFrom (n : Nat) : ∀ {m : Melody} (index : Nat), Plays nodes options m →
    Blames (Failure.OrEndless nodes options) (m.takeFrom index n).2 := by
  induction n with
  | zero =>
    intro m index _
    exact .ok []
  | succ n ih =>
    intro m index hm
    have hget := hm.get hread index
    have hleft := (lasting_plays nodes options).get hm index
    unfold Melody.takeFrom
    rcases hitem : m.get index with ⟨left, item⟩
    rw [hitem] at hget hleft
    cases item with
    | error failure => exact .error (hget failure rfl)
    | ok e => exact (ih (index + 1) hleft).map _

end Read

/-- A start fails of these causes, or what it started plays. -/
theorem init_plays {text : String} (hread : readPattern text = .ok nodes) (options : Options) :
    Blames (Failure.OrEndless nodes options) ((ofNodes text nodes).init options).2 ∧
      ∀ m, (ofNodes text nodes).init options = (m, .ok ()) → Plays nodes options m := by
  let started : Melody := { ofNodes text nodes with source := .ofSeed (options.seed.getD 0), start := options }
  have hblames := reEvaluate_blames (m := started) hread rfl rfl
  have htree : unplayedAll started.reEvaluate.1.nodes = unplayedAll nodes ∧ started.reEvaluate.1.start = options :=
    ⟨started.unplayedAll_reEvaluate, started.reEvaluate_leaves.2.2⟩
  unfold Melody.init
  rcases hresult : started.reEvaluate with ⟨left, result⟩
  rw [hresult] at hblames htree
  cases result with
  | error failure =>
    simp only [started, ofNodes] at hresult ⊢
    rw [hresult]
    refine ⟨hblames, fun m hm => ?_⟩
    cases hm
  | ok done =>
    simp only [started, ofNodes] at hresult ⊢
    rw [hresult]
    refine ⟨.ok (), fun m hm => ?_⟩
    cases hm
    exact ⟨htree.1, htree.2, rfl⟩

/-! ### Failures of a melody -/

/-- A melody that starts and is called fails of these causes only, whatever was
    called before. -/
structure FailsOf (causes : Failure → Prop) (text : String) (options : Options) : Prop where
  start : Blames causes (play text options)
  get : ∀ m, play text options = .ok m → ∀ calls index, Blames causes ((m.afterCalls calls).get index).2
  take : ∀ m, play text options = .ok m → ∀ calls n, Blames causes ((m.afterCalls calls).take n).2

theorem FailsOf.imp {causes causes' : Failure → Prop} {text : String} (h : FailsOf causes text options)
    (himp : ∀ failure, causes failure → causes' failure) : FailsOf causes' text options where
  start := h.start.imp himp
  get m hplay calls index := (h.get m hplay calls index).imp himp
  take m hplay calls n := (h.take m hplay calls n).imp himp

theorem failsOf_orEndless {text : String} (hread : readPattern text = .ok nodes) (options : Options) :
    FailsOf (Failure.OrEndless nodes options) text options := by
  obtain ⟨hinit, hplays⟩ := init_plays hread options
  have hafter : ∀ m, play text options = .ok m → ∀ calls, Plays nodes options (m.afterCalls calls) := by
    intro m hplay calls
    obtain ⟨nodes', hread', hstarted⟩ := play_eq_ok hplay
    obtain rfl := Except.ok.inj (hread.symm.trans hread')
    exact (lasting_plays nodes options).afterCalls calls (hplays m hstarted)
  refine ⟨?_, fun m hplay calls => (hafter m hplay calls).get hread, fun m hplay calls n =>
    (hafter m hplay calls).takeFrom hread n 0⟩
  intro failure hfailure
  have hfresh : Melody.read text = .ok (ofNodes text nodes) := by rw [Melody.read, hread]; rfl
  rw [play, hfresh] at hfailure
  refine hinit failure ?_
  rcases hstarted : (ofNodes text nodes).init options with ⟨left, result⟩
  cases result with
  | error cause =>
    simp only [bind, Except.bind, hstarted] at hfailure
    exact congrArg Except.error (Except.error.inj hfailure)
  | ok done =>
    simp only [bind, Except.bind, hstarted] at hfailure
    cases hfailure

/-- **Every failure has its cause.**  Only reading fails for a text that cannot be
    read.  Starting a pattern that was read, and any call after that, fails in an
    expected way or does not come to an end, and it does come to an end unless some
    name of the text leads back to itself.  If one does, evaluation still fails in
    an expected way wherever it comes to an end, and only there. -/
theorem failures_have_causes (text : String) (options : Options) :
    (∀ failure, readPattern text = .error failure →
      play text options = .error failure ∧ ∃ diagnosis, failure = .unreadable diagnosis) ∧
    ∀ nodes, readPattern text = .ok nodes →
      FailsOf (Failure.OrEndless nodes options) text options ∧
      (¬ Circular nodes → FailsOf (Failure.Expected nodes options) text options ∧
        ∀ visited source, unplayedAll visited = unplayedAll nodes →
          EvaluatesAll visited (.ofOptions options) source (evaluate visited (.ofOptions options) source)) ∧
      ∀ visited source, unplayedAll visited = unplayedAll nodes →
        (∀ run, EvaluatesAll visited (.ofOptions options) source run →
          Blames (Failure.Expected nodes options) run.result) ∧
        ((∀ run, ¬ EvaluatesAll visited (.ofOptions options) source run) →
          (evaluate visited (.ofOptions options) source).result = .error .nestedTooDeep) := by
  constructor
  · intro failure hfailure
    refine ⟨?_, readPattern_fails hfailure⟩
    rw [play, Melody.read, hfailure]
    rfl
  · intro nodes hread
    have hcauses := failsOf_orEndless hread options
    refine ⟨hcauses, ?_, ?_⟩
    · intro hacyclic
      refine ⟨hcauses.imp ?_, ?_⟩
      · rintro failure (hexpected | ⟨-, hcircular⟩)
        · exact hexpected
        · exact absurd hcircular hacyclic
      · intro visited source hvisited
        exact (evaluatesAll_of_acyclic hread hacyclic hvisited rfl source).1
    · intro visited source hvisited
      exact ⟨fun run hrun => derived_blames hread hvisited hrun, evaluate_of_endless⟩

/-- A numeral in the first cycle, and a name that nothing is bound to in the second. -/
theorem numeral_and_unbound_name_have_causes :
    ∃ nodes m, readPattern "<iv B>" = .ok nodes ∧ ¬ Circular nodes ∧ play "<iv B>" {} = .ok m ∧
      (m.get 1).2 = .error (.unknownVariable "B") ∧ Failure.Expected nodes {} (.unknownVariable "B") ∧
      play "<iv B>" .bare = .error (.unresolvedNumeral "iv") ∧
      Failure.Expected nodes .bare (.unresolvedNumeral "iv") := by
  have hcheck : (readPattern "<iv B>").toOption.any (fun nodes =>
      nodes.all (Node.checkTo (Node.descendsTo (fun _ => 0) 4) 5)) = true := by decide +kernel
  have hcheck' : (play "<iv B>" {}).toOption.any (failsOf (.unknownVariable "B") <| ·.get 1 |>.2) = true := by
    decide +kernel
  have hbare : failsOf (.unresolvedNumeral "iv") (play "<iv B>" .bare) = true := by decide +kernel
  obtain ⟨nodes, hread, hnodes⟩ := eq_ok_of_any hcheck
  obtain ⟨m, hplay, hget⟩ := eq_ok_of_any hcheck'
  have hacyclic : ¬ Circular nodes := by
    refine not_circular_of_descends (fun _ => 0) ?_
    intro node hnode
    exact (Node.everywhere_of_checkTo 5 (List.all_eq_true.mp hnodes node hnode)).imp fun _ => Node.descends_of_descendsTo
  obtain ⟨-, hends, -⟩ := (failures_have_causes "<iv B>" {}).2 nodes hread
  obtain ⟨-, hendsBare, -⟩ := (failures_have_causes "<iv B>" .bare).2 nodes hread
  have hunknown := eq_error_of_failsOf hget
  have hunresolved := eq_error_of_failsOf hbare
  exact ⟨nodes, m, hread, hacyclic, hplay, hunknown, (hends hacyclic).1.get m hplay [] 1 _ hunknown, hunresolved,
    (hendsBare hacyclic).1.start _ hunresolved⟩

theorem play_eq_error {text : String} (hread : readPattern text = .ok nodes) {failure : Failure}
    (h : (evaluate nodes (.ofOptions options) (.ofSeed (options.seed.getD 0))).result = .error failure) :
    play text options = .error failure := by
  have hfresh : Melody.read text = .ok (ofNodes text nodes) := by rw [Melody.read, hread]; rfl
  simp only [play, hfresh, bind, Except.bind, init, reEvaluate, ofNodes, h]

/-- A name that stands for itself: there is no run to be had of this pattern, and so
    no first cycle and no failure that it would end in. -/
theorem self_standing_name_never_ends :
    ∃ nodes, readPattern "A=A A" = .ok nodes ∧
      (∀ source run, ¬ EvaluatesAll nodes (.ofOptions {}) source run) ∧
      play "A=A A" {} = .error .nestedTooDeep ∧ ¬ Failure.Expected nodes {} .nestedTooDeep := by
  have hnone := not_evaluatesAll_of_self_standing "A=A" "A" " " "A" "A" (.ofOptions {})
  refine ⟨_, rfl, hnone, play_eq_error rfl (evaluate_of_endless (hnone _)), ?_⟩
  intro hexpected
  cases hexpected with
  | ordinary hordinary => cases hordinary

end Melody

end NumberedMelody
