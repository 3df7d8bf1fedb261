/-
  NumberedMelody/Proofs/Evaluation/Visits.lean
  ============================================
  **Evaluation changes nothing of a tree but visits and kept chords.**  Whatever
  a run yields or fails with, the tree that it leaves behind has the `unplayed`
  tree of the node that was run (`realize_keepsShape`).

  The ways of running nodes inside another node are taken one by one, for any
  realizer that keeps the shape of the nodes it runs.
-/
import NumberedMelody.Evaluation.Realize
import NumberedMelody.Proofs.Evaluation.Numerals
import NumberedMelody.Proofs.Tree.Shape

namespace NumberedMelody

open NumberedMelody.Random (Source)
open Node (unplayed unplayedAll unplayedOption unplayedStep unplayedSteps)

/-! ### The parts of a run -/

namespace Run

variable {σ σ' ρ ρ' : Type}

@[simp] theorem tree_withTree (run : Run σ ρ) (f : σ → σ') : (run.withTree f).tree = f run.tree := rfl

@[simp] theorem tree_withResult (run : Run σ ρ) (f : ρ → Except Failure ρ') :
    (run.withResult f).tree = run.tree := rfl

@[simp] theorem tree_back (run : Run σ ρ) (context : Context) : (run.back context).tree = run.tree := rfl

@[simp] theorem tree_andThen_fst (first : Run σ ρ) (untouched : σ') (next : ρ → Context → Source → Run σ' ρ') :
    (first.andThen untouched next).tree.1 = first.tree := by
  unfold andThen
  cases first.result <;> rfl

/-- Go on from a run that yields, over what it leaves; a run that fails is the end of it. -/
def onward (run : Run σ ρ) (next : Run σ ρ → ρ → Run σ ρ) : Run σ ρ :=
  match run.result with
  | .error _ => run
  | .ok value => next run value

theorem tree_onward {run : Run σ ρ} {next : Run σ ρ → ρ → Run σ ρ} (P : σ → Prop) (hrun : P run.tree)
    (hnext : ∀ value, P (next run value).tree) : P (run.onward next).tree := by
  unfold onward
  cases run.result with
  | error failure => exact hrun
  | ok value => exact hnext value

/-- What holds of the untouched tree and of every tree that the next run can
    leave holds of the tree that is left. -/
theorem tree_andThen_snd {first : Run σ ρ} {untouched : σ'} {next : ρ → Context → Source → Run σ' ρ'}
    (P : σ' → Prop) (huntouched : P untouched)
    (hnext : ∀ value context source, P (next value context source).tree) :
    P (first.andThen untouched next).tree.2 := by
  unfold andThen
  cases first.result with
  | error failure => exact huntouched
  | ok value => exact hnext value first.context first.source

/-! ### Failures are passed on -/

theorem result_withResult_of_error {run : Run σ ρ} {failure : Failure} (f : ρ → Except Failure ρ')
    (h : run.result = .error failure) : (run.withResult f).result = .error failure := by
  rw [withResult, h]
  rfl

theorem result_andThen_of_error {run : Run σ ρ} {failure : Failure} (untouched : σ')
    (next : ρ → Context → Source → Run σ' ρ') (h : run.result = .error failure) :
    (run.andThen untouched next).result = .error failure := by
  unfold andThen
  rw [h]

theorem onward_of_error {run : Run σ ρ} {failure : Failure} (next : Run σ ρ → ρ → Run σ ρ)
    (h : run.result = .error failure) : run.onward next = run := by
  unfold onward
  rw [h]

end Run

namespace Realizer

/-- The realizer changes the visits and the kept chords of a tree, and nothing else. -/
def KeepsShape (realize : Realizer) : Prop :=
  ∀ node context source, (realize node context source).tree.unplayed = node.unplayed

variable {realize : Realizer}

/-! ### Nodes in order -/

theorem KeepsShape.inOrder (h : KeepsShape realize) :
    ∀ (nodes : List Node) (context : Context) (source : Source),
      unplayedAll (inOrder realize nodes context source).tree = unplayedAll nodes := by
  intro nodes
  induction nodes with
  | nil =>
    intro context source
    rfl
  | cons node more ih =>
    intro context source
    simp only [Realizer.inOrder, Run.tree_withTree, unplayedAll, Run.tree_andThen_fst, h node context source]
    refine congrArg _ ?_
    exact Run.tree_andThen_snd (fun tree => unplayedAll tree = unplayedAll more) rfl
      fun _ context source => ih context source

theorem KeepsShape.events (h : KeepsShape realize) (node : Node) (context : Context) (source : Source) :
    (events realize node context source).tree.unplayed = node.unplayed :=
  h node context source

/-! ### Numbers and repeats -/

theorem KeepsShape.number (h : KeepsShape realize) (node : Node) (context : Context) (source : Source) :
    (number realize node context source).tree.unplayed = node.unplayed := by
  cases node with
  | integer text value => rfl
  | _ => exact h _ context source

theorem passes_succ (realize : Realizer) (prepare : Source → Source) (context : Context) (times : Nat)
    (nodes : List Node) (source : Source) :
    passes realize prepare context (times + 1) nodes source =
      ((inOrder realize nodes context (prepare source)).back context).onward fun pass steps =>
        (passes realize prepare context times pass.tree pass.source).withResult fun others => .ok (steps ++ others) := by
  rw [passes, Run.onward]
  cases ((inOrder realize nodes context (prepare source)).back context).result <;> rfl

theorem layers_cons (realize : Realizer) (context : Context) (name : String) (more : List String) (source : Source) :
    layers realize context (name :: more) source =
      ((((use realize name name context source).withResult assignDurations).back context).andThen () fun layer _ source =>
        (layers realize context more source).withResult fun others => .ok (layer :: others)).withTree fun _ => () := by
  rw [layers, Run.andThen]
  cases (((use realize name name context source).withResult assignDurations).back context).result <;> rfl

theorem repeated_succ (realize : Realizer) (prepare : Source → Source) (times : Nat) (nodes : List Node)
    (context : Context) (source : Source) :
    repeated realize prepare (times + 1) nodes context source =
      (passes realize id context 1 nodes source).onward fun pass steps =>
        (passes realize prepare context times pass.tree pass.source).withResult fun others => .ok (steps ++ others) := by
  rw [repeated, Run.onward]
  cases (passes realize id context 1 nodes source).result <;> rfl

section

variable {prepare : Source → Source} {nodes : List Node} {context : Context} {source : Source}

theorem passes_succ_of_error {failure : Failure}
    (h : (inOrder realize nodes context (prepare source)).result = .error failure) (n : Nat) :
    passes realize prepare context (n + 1) nodes source = (inOrder realize nodes context (prepare source)).back context := by
  have hback : ((inOrder realize nodes context (prepare source)).back context).result = .error failure := h
  rw [passes_succ, Run.onward, hback]

theorem passes_succ_of_ok {steps : List Step} (h : (inOrder realize nodes context (prepare source)).result = .ok steps)
    (n : Nat) :
    passes realize prepare context (n + 1) nodes source =
      (passes realize prepare context n (inOrder realize nodes context (prepare source)).tree
        (inOrder realize nodes context (prepare source)).source).withResult fun others => .ok (steps ++ others) := by
  have hback : ((inOrder realize nodes context (prepare source)).back context).result = .ok steps := h
  rw [passes_succ, Run.onward, hback]
  rfl

theorem repeated_succ_of_error {failure : Failure} (h : (inOrder realize nodes context source).result = .error failure)
    (n : Nat) : repeated realize prepare (n + 1) nodes context source = (inOrder realize nodes context source).back context := by
  have hone : (inOrder realize nodes context (id source)).result = .error failure := h
  have hresult : ((inOrder realize nodes context source).back context).result = .error failure := h
  rw [repeated_succ, passes_succ_of_error hone, Run.onward, id, hresult]

theorem repeated_succ_of_ok {steps : List Step} (h : (inOrder realize nodes context source).result = .ok steps) (n : Nat) :
    repeated realize prepare (n + 1) nodes context source =
      (passes realize prepare context n (inOrder realize nodes context source).tree
        (inOrder realize nodes context source).source).withResult fun others => .ok (steps ++ others) := by
  have hone : (inOrder realize nodes context (id source)).result = .ok steps := h
  rw [repeated_succ, passes_succ_of_ok hone]
  simp only [passes, Run.withResult, Except.bind, Run.onward, List.append_nil, id]

end

theorem KeepsShape.passes (h : KeepsShape realize) (prepare : Source → Source) (context : Context) (n : Nat) :
    ∀ (nodes : List Node) (source : Source),
      unplayedAll (passes realize prepare context n nodes source).tree = unplayedAll nodes := by
  induction n with
  | zero =>
    intro nodes source
    rfl
  | succ n ih =>
    intro nodes source
    have hpass := h.inOrder nodes context (prepare source)
    rw [passes_succ]
    exact Run.tree_onward (fun tree => unplayedAll tree = unplayedAll nodes) hpass fun _ => (ih _ _).trans hpass

theorem KeepsShape.repeated (h : KeepsShape realize) (prepare : Source → Source) (times : Nat)
    (nodes : List Node) (context : Context) (source : Source) :
    unplayedAll (repeated realize prepare times nodes context source).tree = unplayedAll nodes := by
  cases times with
  | zero => rfl
  | succ n =>
    have hpass := h.passes id context 1 nodes source
    rw [repeated_succ]
    exact Run.tree_onward (fun tree => unplayedAll tree = unplayedAll nodes) hpass fun _ =>
      (h.passes prepare context n _ _).trans hpass

theorem KeepsShape.repetition (h : KeepsShape realize) (text : String) (replayed : Bool) (values : List Node)
    (count : Node) (context : Context) (source : Source) :
    (repetition realize text replayed values count context source).tree.unplayed =
      (Node.repetition text replayed values count).unplayed := by
  simp only [Realizer.repetition, Run.tree_withTree, unplayed, Run.tree_andThen_fst, h.number]
  congr 1
  refine Run.tree_andThen_snd (fun tree => unplayedAll tree = unplayedAll values) rfl ?_
  intro times context source
  by_cases htimes : times ≤ 0
  · simp only [if_pos htimes]
  · cases replayed with
    | false =>
      simp only [if_neg htimes]
      exact h.repeated id times.toNat values context source
    | true =>
      simp only [if_neg htimes]
      exact h.repeated Source.rewind times.toNat values context source.record

/-! ### List operations -/

theorem mem_or_mem_of_mem_interleave {α : Type} {left right : List α} {a : α}
    (h : a ∈ ListArithmetic.interleave left right) : a ∈ left ∨ a ∈ right := by
  unfold ListArithmetic.interleave at h
  by_cases hleft : left.isEmpty
  · rw [if_pos hleft] at h
    exact .inr h
  · rw [if_neg hleft] at h
    by_cases hright : right.isEmpty
    · rw [if_pos hright] at h
      exact .inl h
    · rw [if_neg hright] at h
      obtain ⟨i, -, hmem⟩ := List.mem_flatMap.mp h
      rcases List.mem_append.mp hmem with hmem | hmem
      · exact .inl (List.mem_of_getElem? (Option.mem_toList.mp hmem))
      · exact .inr (List.mem_of_getElem? (Option.mem_toList.mp hmem))

theorem KeepsShape.operand (h : KeepsShape realize) (right : Option Node) (context : Context)
    (source : Source) :
    unplayedOption (operand realize right context source).tree = unplayedOption right := by
  cases right with
  | none => rfl
  | some node => exact congrArg some (h.events node context source)

theorem KeepsShape.operation (h : KeepsShape realize) (left : List Event) (step : Operation Node)
    (context : Context) (source : Source) :
    unplayedStep (operation realize left step context source).tree = unplayedStep step := by
  have hoperand := fun right => h.operand right context source
  cases step with
  | map expr => rfl
  | binary op right =>
    cases op with
    | zip => rfl
    | vertical => exact congrArg (Operation.binary .vertical) (hoperand right)
    | horizontal => exact congrArg (Operation.binary .horizontal) (hoperand right)
    | arithmetic op => exact congrArg (Operation.binary (.arithmetic op)) (hoperand right)

theorem KeepsShape.operationsOn (h : KeepsShape realize) (steps : List (Operation Node)) :
    ∀ (left : List Event) (context : Context) (source : Source),
      unplayedSteps (operationsOn realize left steps context source).tree = unplayedSteps steps := by
  induction steps with
  | nil =>
    intro left context source
    rfl
  | cons step more ih =>
    intro left context source
    simp only [Realizer.operationsOn, Run.tree_withTree, unplayedSteps, Run.tree_andThen_fst, h.operation]
    refine congrArg _ ?_
    exact Run.tree_andThen_snd (fun tree => unplayedSteps tree = unplayedSteps more) rfl
      fun events context source => ih events context source

/-- Interleaving first takes the elements of the left list as they are written. -/
theorem operations_zip (text : String) (left : Node) (right : Option Node) (more : List (Operation Node))
    (context : Context) (source : Source) :
    operations realize text left (.binary .zip right :: more) context source =
      (((zipped realize left.elements right context source).andThen more fun events context source =>
        operationsOn realize events more context source).withTree fun (_, more) =>
          Node.operations text left (.binary .zip right :: more)).withResult fun events => .ok (events.map .ready) := rfl

theorem operations_events (text : String) (left : Node) {steps : List (Operation Node)}
    (hsteps : ∀ right more, steps ≠ .binary .zip right :: more) (context : Context) (source : Source) :
    operations realize text left steps context source =
      (((events realize left context source).andThen steps fun events context source =>
        operationsOn realize events steps context source).withTree fun (left, steps) =>
          Node.operations text left steps).withResult fun events => .ok (events.map .ready) := by
  unfold operations
  split
  · exact (hsteps _ _ rfl).elim
  · rfl

theorem KeepsShape.operations (h : KeepsShape realize) (text : String) (left : Node)
    (steps : List (Operation Node)) (context : Context) (source : Source) :
    (operations realize text left steps context source).tree.unplayed =
      (Node.operations text left steps).unplayed := by
  unfold Realizer.operations
  simp only [Run.tree_withResult]
  split
  · next right more =>
    simp only [Run.tree_withTree, unplayed, unplayedSteps]
    rw [Run.tree_andThen_snd (fun tree => unplayedSteps tree = unplayedSteps more) rfl
      fun events context source => h.operationsOn more events context source]
  · simp only [Run.tree_withTree, unplayed, Run.tree_andThen_fst, h.events]
    rw [Run.tree_andThen_snd (fun tree => unplayedSteps tree = unplayedSteps steps) rfl
      fun events context source => h.operationsOn steps events context source]

/-! ### Lists dealt out -/

/-- An element put in the place of one of the same shape. -/
theorem unplayedAll_set {nodes : List Node} {place : Nat} {old new : Node} (hold : nodes[place]? = some old)
    (hnew : new.unplayed = old.unplayed) : unplayedAll (nodes.set place new) = unplayedAll nodes := by
  simp only [Node.unplayedAll_eq_map, List.map_set, hnew]
  apply List.ext_getElem?
  intro i
  rw [List.getElem?_set]
  by_cases hi : place = i
  · subst hi
    obtain ⟨hlt, hget⟩ := List.getElem?_eq_some_iff.mp hold
    simp [hlt, hget]
  · simp only [if_neg hi]

theorem KeepsShape.deal (h : KeepsShape realize) (deck : Deck) (source : Source) :
    unplayedAll (deck.deal realize source).tree.elements = unplayedAll deck.elements := by
  unfold Deck.deal
  cases hplace : deck.elements[deck.dealt % deck.elements.length]? with
  | none => simp only [hplace]
  | some element =>
    simp only [hplace, Run.tree_withTree]
    exact unplayedAll_set hplace (h element deck.context source)

/-- One step of a rhythm: an element of the one deck or the other, or a silence. -/
def beat (realize : Realizer) (silence : Step) (hit : Bool) (on off : Deck) (source : Source) :
    Run (Deck × Deck) (List Step) :=
  if hit then (Deck.deal realize on source).withTree (·, off)
  else if off.elements.isEmpty then ⟨(on, off), on.context, source, .ok [silence]⟩
  else (Deck.deal realize off source).withTree (on, ·)

theorem dealt_cons (realize : Realizer) (silence : Step) (hit : Bool) (more : List Bool) (on off : Deck)
    (source : Source) :
    dealt realize silence (hit :: more) on off source =
      (beat realize silence hit on off source).onward fun run steps =>
        (dealt realize silence more run.tree.1 run.tree.2 run.source).withResult
          fun others => .ok (steps ++ others) := by
  rw [dealt, Run.onward]
  simp only [beat]
  split <;> simp only [*]

theorem KeepsShape.beat (h : KeepsShape realize) (silence : Step) (hit : Bool) (on off : Deck)
    (source : Source) :
    unplayedAll (beat realize silence hit on off source).tree.1.elements = unplayedAll on.elements ∧
      unplayedAll (beat realize silence hit on off source).tree.2.elements = unplayedAll off.elements := by
  unfold Realizer.beat
  cases hit with
  | true => exact ⟨h.deal on source, rfl⟩
  | false =>
    by_cases hempty : off.elements.isEmpty
    · simp only [Bool.false_eq_true, if_false, if_pos hempty]
      exact ⟨trivial, trivial⟩
    · simp only [Bool.false_eq_true, if_false, if_neg hempty]
      exact ⟨rfl, h.deal off source⟩

theorem KeepsShape.dealt (h : KeepsShape realize) (silence : Step) (rhythm : List Bool) :
    ∀ (on off : Deck) (source : Source),
      unplayedAll (dealt realize silence rhythm on off source).tree.1.elements = unplayedAll on.elements ∧
      unplayedAll (dealt realize silence rhythm on off source).tree.2.elements =
        unplayedAll off.elements := by
  induction rhythm with
  | nil =>
    intro on off source
    exact ⟨rfl, rfl⟩
  | cons hit more ih =>
    intro on off source
    have hbeat := h.beat silence hit on off source
    rw [dealt_cons]
    refine Run.tree_onward (fun decks : Deck × Deck => unplayedAll decks.1.elements = unplayedAll on.elements ∧
      unplayedAll decks.2.elements = unplayedAll off.elements) hbeat fun steps => ?_
    obtain ⟨hon, hoff⟩ := ih (Realizer.beat realize silence hit on off source).tree.1
      (Realizer.beat realize silence hit on off source).tree.2
      (Realizer.beat realize silence hit on off source).source
    exact ⟨hon.trans hbeat.1, hoff.trans hbeat.2⟩

theorem unplayedAll_refill (values : List Node) :
    ∀ elements : List Node, unplayedAll elements = unplayedAll (values.filter (!·.isBlank)) →
      unplayedAll (refill values elements) = unplayedAll values := by
  induction values with
  | nil =>
    intro elements _
    rfl
  | cons value values ih =>
    intro elements helements
    cases hblank : value.isBlank with
    | true =>
      simp only [List.filter_cons, hblank, Bool.not_true, if_false, Bool.false_eq_true] at helements
      simp only [refill, hblank, if_true, unplayedAll, ih elements helements]
    | false =>
      simp only [List.filter_cons, hblank, Bool.not_false, if_true] at helements
      cases elements with
      | nil => simp [unplayedAll] at helements
      | cons element elements =>
        simp only [unplayedAll, List.cons.injEq] at helements
        simp only [refill, hblank, Bool.false_eq_true, if_false, unplayedAll, helements.1, ih elements helements.2]

theorem unplayed_withElements {node : Node} {elements : List Node}
    (h : unplayedAll elements = unplayedAll node.elements) :
    (withElements node elements).unplayed = node.unplayed := by
  cases node with
  | sequence text overrides isList values =>
    simp only [withElements, unplayed]
    rw [unplayedAll_refill values elements h]
  | _ =>
    cases elements with
    | nil => simp [Node.elements, unplayedAll] at h
    | cons element elements =>
      simp only [Node.elements, unplayedAll, List.cons.injEq] at h
      simp only [withElements, List.headD_cons]
      exact h.1

theorem filter_refill (values : List Node) :
    ∀ elements : List Node, unplayedAll elements = unplayedAll (values.filter (!·.isBlank)) →
      (refill values elements).filter (!·.isBlank) = elements := by
  induction values with
  | nil =>
    intro elements helements
    cases elements with
    | nil => rfl
    | cons element elements => simp [unplayedAll] at helements
  | cons value values ih =>
    intro elements helements
    cases hblank : value.isBlank with
    | true =>
      simp only [List.filter_cons, hblank, Bool.not_true, if_false, Bool.false_eq_true] at helements
      simp only [refill, hblank, if_true, List.filter_cons, Bool.not_true, Bool.false_eq_true, if_false,
        ih elements helements]
    | false =>
      simp only [List.filter_cons, hblank, Bool.not_false, if_true] at helements
      cases elements with
      | nil => simp [unplayedAll] at helements
      | cons element elements =>
        simp only [unplayedAll, List.cons.injEq] at helements
        have hsolid := (Node.isBlank_eq_of_unplayed_eq helements.1).trans hblank
        simp only [refill, hblank, Bool.false_eq_true, if_false, List.filter_cons, hsolid, Bool.not_false, if_true,
          ih elements helements.2]

/-- The elements that are put back are the elements of the list. -/
theorem elements_withElements {node : Node} {elements : List Node}
    (h : unplayedAll elements = unplayedAll node.elements) : (withElements node elements).elements = elements := by
  cases hsequence : node.isSequence with
  | true =>
    cases node with
    | sequence text overrides isList values => exact filter_refill values elements h
    | _ => cases hsequence
  | false =>
    rw [Node.elements_of_not_sequence hsequence] at h
    obtain ⟨element, rfl⟩ : ∃ element, elements = [element] := by
      apply List.length_eq_one_iff.mp
      simpa [Node.unplayedAll_eq_map] using congrArg List.length h
    have hshape : element.unplayed = node.unplayed := by simpa [unplayedAll] using h
    have helement : element.isSequence = false := by
      rw [← Node.isSequence_unplayed, hshape, Node.isSequence_unplayed, hsequence]
    cases node with
    | sequence text overrides isList values => cases hsequence
    | _ => exact Node.elements_of_not_sequence helement

theorem KeepsShape.euclid (h : KeepsShape realize) (text : String) (pulses length : Nat) (rotate : Int)
    (onset : Node) (offset : Option Node) (context : Context) (source : Source) :
    (euclid realize text pulses length rotate onset offset context source).tree.unplayed =
      (Node.euclid text pulses length rotate onset offset).unplayed := by
  unfold Realizer.euclid
  by_cases hempty : onset.elements.isEmpty
  · simp only [if_pos hempty]
  · simp only [if_neg hempty, Run.tree_withTree, Run.tree_back, unplayed]
    obtain ⟨hon, hoff⟩ := h.dealt
      (.ready (.rest { text := "r", duration := some context.options.duration }))
      (Rhythm.euclidean pulses length rotate) (Deck.ofList onset context)
      ((offset.map (Deck.ofList · context)).getD ⟨[], 0, context⟩) source
    rw [unplayed_withElements hon]
    cases offset with
    | none => rfl
    | some offset =>
      have hrefilled := unplayed_withElements hoff
      simp only [Option.map_some, unplayedOption] at hrefilled ⊢
      rw [hrefilled]

/-! ### One level, and a whole tree -/

theorem KeepsShape.visit (h : KeepsShape realize) (text : String) (values : List Node) (visits : Nat)
    (context : Context) (source : Source) :
    (visit realize text values visits context source).tree.unplayed =
      (Node.cycle text values visits).unplayed := by
  unfold Realizer.visit
  cases hplace : values[visits % values.length]? with
  | none => simp only [hplace]
  | some value =>
    simp only [hplace, Run.tree_withTree, unplayed]
    rw [unplayedAll_set hplace (h value context source)]

theorem KeepsShape.assignment (h : KeepsShape realize) (text name : String) (eager : Bool) (value : Node)
    (context : Context) (source : Source) :
    (assignment realize text name eager value context source).tree.unplayed =
      (Node.assignment text name eager value).unplayed := by
  unfold Realizer.assignment
  cases eager with
  | false => rfl
  | true =>
    have hvalue := h.events value context source
    cases hresult : (Realizer.events realize value context source).result with
    | error failure => simp only [hresult, if_true, unplayed, hvalue]
    | ok played => simp only [hresult, if_true, unplayed, hvalue]

/-- One level keeps the shape of a node if the level below does. -/
theorem KeepsShape.level {inner : Realizer} (h : KeepsShape inner) (stored : Realizer) :
    KeepsShape (level inner stored) := by
  intro node context source
  cases node with
  | sequence text overrides isList values =>
    simp only [Realizer.level, Run.tree_withTree, Run.tree_back, unplayed, h.inOrder]
  | subdivision text overrides values =>
    simp only [Realizer.level, Run.tree_withTree, Run.tree_back, Run.tree_withResult, unplayed, h.inOrder]
  | cycle text values visits => exact h.visit text values visits context source
  | repetition text replayed values count => exact h.repetition text replayed values count context source
  | operations text left steps => exact h.operations text left steps context source
  | euclid text pulses length rotate onset offset =>
    exact h.euclid text pulses length rotate onset offset context source
  | assignment text name eager value => exact h.assignment text name eager value context source
  | numeral k => simp only [Realizer.level, unplayed, KeptNumeral.numeral_play]
  | _ => rfl

theorem keepsShape_exhausted : KeepsShape exhausted := fun _ _ _ => rfl

theorem keepsShape_toDepth (stored : Realizer) (depth : Nat) : KeepsShape (toDepth stored depth) := by
  induction depth with
  | zero => exact keepsShape_exhausted
  | succ depth ih => exact ih.level stored

theorem keepsShape_nested (limit : Nat) : KeepsShape (nested limit) := by
  cases limit with
  | zero => exact keepsShape_exhausted
  | succ limit =>
    intro node context source
    exact keepsShape_toDepth (nested limit) node.depth node context source

end Realizer

/-- **A run changes nothing of a tree but visits and kept chords.** -/
theorem realize_keepsShape : Realizer.KeepsShape realize := Realizer.keepsShape_nested nestingLimit

theorem evaluate_keepsShape (nodes : List Node) (context : Context) (source : Source) :
    unplayedAll (evaluate nodes context source).tree = unplayedAll nodes :=
  realize_keepsShape.inOrder nodes context source

end NumberedMelody
