/-
  NumberedMelody/Proofs/Evaluation/Blanks.lean
  ============================================
  **Evaluation does not hear blanks.**  Blanks may be dropped before a tree is
  run or after: the same is yielded, the same source is left, and the tree and
  the context that are left differ in blanks alone (`evaluate_solid`).  The ways
  of running nodes inside another node are taken one by one, for any realizer
  of which this holds.

  A list is run past its blanks, which yield nothing.  A rhythm and an
  interleaving count the elements of their lists, and a share is divided among
  steps; no blank is an element or yields a step.
-/
import NumberedMelody.Proofs.Evaluation.CyclicZip

namespace NumberedMelody

open NumberedMelody.Random (Source)
open Node (solid solidAll solidStep withoutBlanks)

/-! ### Runs -/

namespace Run

variable {σ σ' τ τ' ρ ρ' : Type}

/-- The second run leaves and yields what the first one does, but for blanks. -/
def Solid (f : σ → σ') (x : Run σ ρ) (y : Run σ' ρ) : Prop :=
  y = ⟨f x.tree, x.context.solid, x.source, x.result⟩

namespace Solid

variable {f : σ → σ'} {u : τ → τ'} {x : Run σ ρ} {y : Run σ' ρ}

theorem withTree (h : x.Solid f y) {k : σ → τ} {l : σ' → τ'} (hk : l (f x.tree) = u (k x.tree)) :
    (x.withTree k).Solid u (y.withTree l) := by
  subst h
  simp only [Solid, Run.withTree, hk]

theorem withResult (h : x.Solid f y) (k : ρ → Except Failure ρ') : (x.withResult k).Solid f (y.withResult k) := by
  subst h
  rfl

theorem back (h : x.Solid f y) (context : Context) : (x.back context).Solid f (y.back context.solid) := by
  subst h
  rfl

theorem andThen (h : x.Solid f y) (untouched : τ) {next : ρ → Context → Source → Run τ ρ'}
    {next' : ρ → Context → Source → Run τ' ρ'}
    (hnext : ∀ value context source, (next value context source).Solid u (next' value context.solid source)) :
    (x.andThen untouched next).Solid (Prod.map f u) (y.andThen (u untouched) next') := by
  subst h
  obtain ⟨tree, context, source, result⟩ := x
  rcases result with failure | value
  · rfl
  · simp only [Solid] at hnext
    simp only [Solid, Run.andThen, hnext, Run.withTree, Prod.map_apply]

theorem onward (h : x.Solid f y) {next : Run σ ρ → ρ → Run σ ρ} {next' : Run σ' ρ → ρ → Run σ' ρ}
    (hnext : ∀ value, (next x value).Solid f (next' y value)) : (x.onward next).Solid f (y.onward next') := by
  subst h
  obtain ⟨tree, context, source, result⟩ := x
  rcases result with failure | value
  · rfl
  · exact hnext value

theorem tree_eq (h : x.Solid f y) : y.tree = f x.tree := by rw [h]

theorem context_eq (h : x.Solid f y) : y.context = x.context.solid := by rw [h]

theorem source_eq (h : x.Solid f y) : y.source = x.source := by rw [h]

theorem result_eq (h : x.Solid f y) : y.result = x.result := by rw [h]

end Solid

end Run

namespace Realizer

/-- Blanks inside a node may be dropped before the node is run or after. -/
def Deaf (r : Realizer) : Prop :=
  ∀ node context source, (r node context source).Solid solid (r node.solid context.solid source)

variable {r : Realizer}

/-! ### Nodes in order -/

theorem Deaf.inEachOrder (h : Deaf r) (nodes : List Node) : ∀ (context : Context) (source : Source),
    (inOrder r nodes context source).Solid (List.map solid) (inOrder r (nodes.map solid) context.solid source) := by
  induction nodes with
  | nil =>
    intro context source
    rfl
  | cons node more ih =>
    intro context source
    refine ((h node context source).andThen more ?_).withTree rfl
    intro steps context source
    exact (ih context source).withResult _

/-- A list may be run with its blanks or without. -/
theorem Deaf.inOrder (h : Deaf r) (hskips : SkipsBlanks r) (keeps : KeepsShape r) (nodes : List Node)
    (context : Context) (source : Source) :
    (inOrder r nodes context source).Solid solidAll (inOrder r (solidAll nodes) context.solid source) := by
  have hwithout := hskips.inOrder keeps nodes context source
  have heach := h.inEachOrder (withoutBlanks nodes) context source
  rw [← hwithout, ← Node.solidAll_eq_map] at heach
  rw [heach]
  simp only [Run.Solid, Run.withTree, Node.solidAll_eq_map]

theorem Deaf.events (h : Deaf r) (node : Node) (context : Context) (source : Source) :
    (events r node context source).Solid solid (events r node.solid context.solid source) :=
  ((h node context source).withResult _).back context

theorem Deaf.eventsInOrder (h : Deaf r) (nodes : List Node) (context : Context) (source : Source) :
    (eventsInOrder r nodes context source).Solid (List.map solid)
      (eventsInOrder r (nodes.map solid) context.solid source) :=
  ((h.inEachOrder nodes context source).withResult _).back context

/-! ### Numbers and repeats -/

theorem Deaf.number (h : Deaf r) (node : Node) (context : Context) (source : Source) :
    (number r node context source).Solid solid (number r node.solid context.solid source) := by
  cases node with
  | integer text value => rfl
  | _ =>
    refine Run.Solid.back ?_ context
    exact (h _ context source).withResult _

section

variable (hskips : SkipsBlanks r) (keeps : KeepsShape r)
include hskips keeps

theorem Deaf.passes (h : Deaf r) (prepare : Source → Source) (context : Context) (times : Nat) :
    ∀ (nodes : List Node) (source : Source),
      (passes r prepare context times nodes source).Solid solidAll
        (passes r prepare context.solid times (solidAll nodes) source) := by
  induction times with
  | zero =>
    intro nodes source
    rfl
  | succ times ih =>
    intro nodes source
    have hpass := (h.inOrder hskips keeps nodes context (prepare source)).back context
    rw [passes_succ, passes_succ]
    refine hpass.onward fun steps => ?_
    rw [hpass.tree_eq, hpass.source_eq]
    exact (ih _ _).withResult _

theorem Deaf.repeated (h : Deaf r) (prepare : Source → Source) (times : Nat) (nodes : List Node) (context : Context)
    (source : Source) :
    (repeated r prepare times nodes context source).Solid solidAll
      (repeated r prepare times (solidAll nodes) context.solid source) := by
  cases times with
  | zero => rfl
  | succ times =>
    have hpass := h.passes hskips keeps id context 1 nodes source
    rw [repeated_succ, repeated_succ]
    refine hpass.onward fun steps => ?_
    rw [hpass.tree_eq, hpass.source_eq]
    exact (h.passes hskips keeps prepare context times _ _).withResult _

theorem Deaf.repetition (h : Deaf r) (text : String) (replayed : Bool) (values : List Node) (count : Node)
    (context : Context) (source : Source) :
    (repetition r text replayed values count context source).Solid solid
      (repetition r text replayed (solidAll values) count.solid context.solid source) := by
  unfold Realizer.repetition
  refine ((h.number count context source).andThen (u := solidAll) values ?_).withTree rfl
  intro times context source
  by_cases htimes : times ≤ 0
  · simp only [if_pos htimes]
    rfl
  · simp only [if_neg htimes]
    cases replayed with
    | false => exact h.repeated hskips keeps id times.toNat values context source
    | true =>
      have hrun := h.repeated hskips keeps Source.rewind times.toNat values context source.record
      simp only [if_true]
      rw [hrun]
      rfl

end

/-! ### List operations -/

theorem Deaf.zipped (h : Deaf r) (left : List Node) (right : Option Node) (context : Context) (source : Source) :
    (zipped r left right context source).Solid id
      (zipped r (left.map solid) (right.map solid) context.solid source) := by
  have hright : ((right.map solid).map Node.elements).getD [] = ((right.map Node.elements).getD []).map solid := by
    rcases right with _ | right
    · rfl
    · exact right.elements_solid
  unfold Realizer.zipped
  simp only [hright, ListArithmetic.map_interleave]
  exact (h.eventsInOrder _ context source).withTree rfl

theorem Deaf.operand (h : Deaf r) (right : Option Node) (context : Context) (source : Source) :
    (operand r right context source).Solid (Option.map solid)
      (operand r (right.map solid) context.solid source) := by
  rcases right with _ | right
  · rfl
  · exact (h.events right context source).withTree rfl

theorem solidStep_binary (op : ListOperator) (right : Option Node) :
    solidStep (.binary op right) = .binary op (right.map solid) := by
  rw [solidStep, Node.solidOption_eq_map]

theorem Deaf.operation (h : Deaf r) (left : List Event) (step : Operation Node) (context : Context)
    (source : Source) :
    (operation r left step context source).Solid solidStep
      (operation r left (solidStep step) context.solid source) := by
  cases step with
  | map expr => rfl
  | binary op right =>
    rw [solidStep_binary]
    have hoperand := (h.operand right context source).withTree (u := solidStep) (solidStep_binary op _).symm
    cases op with
    | zip =>
      have hzip := h.zipped (left.map .event) right context source
      rw [List.map_map] at hzip
      simp only [Realizer.operation]
      exact hzip.withTree (solidStep_binary .zip right).symm
    | vertical => exact hoperand.withResult _
    | horizontal => exact hoperand.withResult _
    | arithmetic op => exact hoperand.withResult _

theorem Deaf.operationsOn (h : Deaf r) (steps : List (Operation Node)) :
    ∀ (left : List Event) (context : Context) (source : Source),
      (operationsOn r left steps context source).Solid (List.map solidStep)
        (operationsOn r left (steps.map solidStep) context.solid source) := by
  induction steps with
  | nil =>
    intro left context source
    rfl
  | cons step more ih =>
    intro left context source
    exact ((h.operation left step context source).andThen more
      fun events context source => ih events context source).withTree rfl

theorem Deaf.operations (h : Deaf r) (text : String) (left : Node) (steps : List (Operation Node))
    (context : Context) (source : Source) :
    (operations r text left steps context source).Solid solid
      (operations r text left.solid (steps.map solidStep) context.solid source) := by
  by_cases hzip : ∃ right more, steps = .binary .zip right :: more
  · obtain ⟨right, more, rfl⟩ := hzip
    rw [List.map_cons, solidStep_binary, operations_zip, operations_zip, Node.elements_solid]
    refine Run.Solid.withResult (((h.zipped left.elements right context source).andThen (u := List.map solidStep) more
      fun events context source => h.operationsOn more events context source).withTree ?_) _
    simp only [Prod.map_snd, solid, Node.solidSteps_eq_map, List.map_cons, solidStep_binary]
  · have hplain : ∀ right more, steps ≠ .binary .zip right :: more := fun right more heq => hzip ⟨right, more, heq⟩
    have hplain' : ∀ right more, steps.map solidStep ≠ .binary .zip right :: more := by
      rintro right more heq
      obtain ⟨step, rest, rfl, hstep, -⟩ := List.map_eq_cons_iff.mp heq
      cases step with
      | map expr => cases hstep
      | binary op operand =>
        simp only [solidStep_binary, Operation.binary.injEq] at hstep
        exact hplain operand rest (by rw [hstep.1])
    rw [operations_events text left hplain, operations_events text _ hplain']
    refine Run.Solid.withResult (((h.events left context source).andThen (u := List.map solidStep) steps
      fun events context source => h.operationsOn steps events context source).withTree ?_) _
    simp only [Prod.map_fst, Prod.map_snd, solid, Node.solidSteps_eq_map]

/-! ### Dealing lists out -/

/-- The deck, with no blanks inside its elements. -/
def Deck.solid (deck : Deck) : Deck := ⟨deck.elements.map Node.solid, deck.dealt, deck.context.solid⟩

theorem ofList_solid (node : Node) (context : Context) :
    Deck.ofList node.solid context.solid = (Deck.ofList node context).solid := by
  simp only [Deck.ofList, Deck.solid, Node.elements_solid, Node.listOverrides_solid, Context.inside_solid]

theorem Deaf.deal (h : Deaf r) (deck : Deck) (source : Source) :
    (deck.deal r source).Solid Deck.solid (deck.solid.deal r source) := by
  unfold Deck.deal
  simp only [Deck.solid, List.length_map, List.getElem?_map]
  rcases deck.elements[deck.dealt % deck.elements.length]? with _ | element
  · rfl
  · have hrun := h element deck.context source
    refine hrun.withTree ?_
    simp only [Deck.solid, List.map_set, hrun.context_eq]

theorem Deaf.beat (h : Deaf r) (silence : Step) (hit : Bool) (on off : Deck) (source : Source) :
    (beat r silence hit on off source).Solid (Prod.map Deck.solid Deck.solid)
      (beat r silence hit on.solid off.solid source) := by
  have hempty : off.solid.elements.isEmpty = off.elements.isEmpty := List.isEmpty_map
  unfold Realizer.beat
  rw [hempty]
  split
  · exact (h.deal on source).withTree rfl
  · split
    · rfl
    · exact (h.deal off source).withTree rfl

theorem Deaf.dealt (h : Deaf r) (silence : Step) (rhythm : List Bool) : ∀ (on off : Deck) (source : Source),
    (dealt r silence rhythm on off source).Solid (Prod.map Deck.solid Deck.solid)
      (dealt r silence rhythm on.solid off.solid source) := by
  induction rhythm with
  | nil =>
    intro on off source
    rfl
  | cons hit more ih =>
    intro on off source
    have hbeat := h.beat silence hit on off source
    rw [dealt_cons, dealt_cons]
    refine hbeat.onward fun steps => ?_
    rw [hbeat.tree_eq, hbeat.source_eq]
    exact (ih _ _ _).withResult _

/-- Without blanks among them, all values are replaced. -/
theorem refill_solidAll (values : List Node) :
    ∀ elements : List Node, Node.unplayedAll elements = Node.unplayedAll (withoutBlanks values) →
      refill (solidAll values) (elements.map solid) = elements.map solid := by
  induction values with
  | nil =>
    intro elements helements
    cases elements with
    | nil => rfl
    | cons element elements => simp [withoutBlanks, Node.unplayedAll] at helements
  | cons value values ih =>
    intro elements helements
    cases hblank : value.isBlank with
    | true =>
      have hskip : withoutBlanks (value :: values) = withoutBlanks values := by simp [withoutBlanks, hblank]
      rw [hskip] at helements
      simp only [solidAll, hblank, if_true]
      exact ih elements helements
    | false =>
      have hkeep : withoutBlanks (value :: values) = value :: withoutBlanks values := by simp [withoutBlanks, hblank]
      rw [hkeep] at helements
      cases elements with
      | nil => simp [Node.unplayedAll] at helements
      | cons element elements =>
        simp only [Node.unplayedAll, List.cons.injEq] at helements
        simp only [solidAll, hblank, Bool.false_eq_true, if_false, List.map_cons, refill, Node.isBlank_solid,
          ih elements helements.2]

theorem withElements_solid {node : Node} {elements : List Node}
    (h : Node.unplayedAll elements = Node.unplayedAll node.elements) :
    withElements node.solid (elements.map solid) = (withElements node elements).solid := by
  cases node with
  | sequence text overrides isList values =>
    have hvalues : withoutBlanks (refill values elements) = elements := filter_refill values elements h
    simp only [solid, withElements, Node.solidAll_eq_map (refill values elements), hvalues]
    rw [refill_solidAll values elements h]
  | _ => cases elements <;> rfl

theorem Deaf.euclid (h : Deaf r) (keeps : KeepsShape r) (text : String) (pulses length : Nat) (rotate : Int)
    (onset : Node) (offset : Option Node) (context : Context) (source : Source) :
    (euclid r text pulses length rotate onset offset context source).Solid solid
      (euclid r text pulses length rotate onset.solid (offset.map solid) context.solid source) := by
  have hoff : ((offset.map solid).map (Deck.ofList · context.solid)).getD ⟨[], 0, context.solid⟩ =
      ((offset.map (Deck.ofList · context)).getD ⟨[], 0, context⟩).solid := by
    rcases offset with _ | offset
    · rfl
    · exact ofList_solid offset context
  unfold Realizer.euclid
  simp only [hoff, ofList_solid, Node.elements_solid, List.isEmpty_map]
  split
  · exact congrArg (Run.mk · _ _ _) (by rw [solid, Node.solidOption_eq_map])
  · obtain ⟨hon, hoffset⟩ := keeps.dealt
      (.ready (.rest { text := "r", duration := some context.options.duration }))
      (Rhythm.euclidean pulses length rotate) (Deck.ofList onset context)
      ((offset.map (Deck.ofList · context)).getD ⟨[], 0, context⟩) source
    refine ((h.dealt _ _ _ _ source).back context).withTree ?_
    simp only [Run.back, Prod.map_fst, Prod.map_snd, Deck.solid, solid, Node.solidOption_eq_map]
    rw [withElements_solid hon]
    rcases offset with _ | offset
    · rfl
    · simp only [Option.map_some] at hoffset ⊢
      rw [withElements_solid hoffset]

/-! ### Variables -/

theorem Deaf.use (h : Deaf r) (name text : String) (context : Context) (source : Source) :
    (use r name text context source).Solid id (use r name text context.solid source) := by
  unfold Realizer.use
  rw [Context.lookup_solid]
  rcases context.stored.lookup name with _ | value
  · rfl
  · exact (h value context source).withTree rfl

theorem Deaf.layers (h : Deaf r) (context : Context) (names : List String) : ∀ source : Source,
    (layers r context names source).Solid id (layers r context.solid names source) := by
  induction names with
  | nil =>
    intro source
    rfl
  | cons name more ih =>
    intro source
    have hlayer := ((h.use name name context source).withResult assignDurations).back context
    unfold Realizer.layers
    simp only [hlayer.result_eq, hlayer.source_eq]
    rcases (((Realizer.use r name name context source).withResult assignDurations).back context).result with
      failure | layer
    · rfl
    · exact (ih _).withResult _

/-! ### Levels -/

theorem Deaf.visit (h : Deaf r) (text : String) (values : List Node) (visits : Nat) (context : Context)
    (source : Source) :
    (visit r text values visits context source).Solid solid
      (visit r text (values.map solid) visits context.solid source) := by
  unfold Realizer.visit
  simp only [List.length_map, List.getElem?_map]
  rcases values[visits % values.length]? with _ | value
  · exact congrArg (Run.mk · _ _ _) (by rw [solid, Node.solidEach_eq_map])
  · refine (h value context source).withTree ?_
    rw [solid, Node.solidEach_eq_map, List.map_set]

theorem Deaf.assignment (h : Deaf r) (text name : String) (eager : Bool) (value : Node) (context : Context)
    (source : Source) :
    (assignment r text name eager value context source).Solid solid
      (assignment r text name eager value.solid context.solid source) := by
  unfold Realizer.assignment
  split
  · have hrun := h.events value context source
    simp only [hrun.result_eq, hrun.source_eq, hrun.tree_eq, Node.text_solid]
    rcases (Realizer.events r value context source).result with failure | played
    · rfl
    · have hstored : Node.sequence value.text {} true (played.map .event) =
          (Node.sequence value.text {} true (played.map .event)).solid := by
        rw [solid, Node.solidAll_events]
      simp only
      rw [hstored, Context.assign_solid, ← hstored]
      rfl
  · simp only [Context.assign_solid]
    rfl

/-- **One level does not hear blanks** if the levels below it do not. -/
theorem Deaf.level {inner stored : Realizer} (hinner : Deaf inner) (hskips : SkipsBlanks inner)
    (keeps : KeepsShape inner) (hstored : Deaf stored) : Deaf (level inner stored) := by
  intro node context source
  cases node with
  | change text change => exact congrArg (Run.mk _ · _ _) (context.after_solid change)
  | sequence text overrides isList values =>
    simp only [solid, Realizer.level, Context.inside_solid]
    exact ((hinner.inOrder hskips keeps values _ source).back context).withTree rfl
  | cycle text values visits =>
    simp only [solid, Node.solidEach_eq_map]
    exact hinner.visit text values visits context source
  | subdivision text overrides values =>
    simp only [solid, Realizer.level, Context.inside_solid]
    exact (((hinner.inOrder hskips keeps values _ source).withResult _).back context).withTree rfl
  | repetition text replayed values count =>
    exact hinner.repetition hskips keeps text replayed values count context source
  | operations text left steps =>
    simp only [solid, Node.solidSteps_eq_map]
    exact hinner.operations text left steps context source
  | euclid text pulses length rotate onset offset =>
    simp only [solid, Node.solidOption_eq_map]
    exact hinner.euclid keeps text pulses length rotate onset offset context source
  | assignment text name eager value => exact hinner.assignment text name eager value context source
  | «variable» text name =>
    have huse := hstored.use name text context source
    unfold Realizer.level
    exact huse.withTree rfl
  | together text names =>
    have hlayers := hstored.layers context names source
    unfold Realizer.level
    exact (hlayers.withResult _).withTree rfl
  | _ => rfl

/-! ### Depths -/

/-- Below the depth of a tree there are no nodes left to run, blanks apart. -/
def bottom : Realizer := fun node context source =>
  if node.isBlank then ⟨node, context, source, .ok []⟩ else exhausted node context source

/-- A tree to a depth of nesting, where blanks may stand deeper. -/
def toBottom (stored : Realizer) : Nat → Realizer
  | 0 => bottom
  | depth + 1 => level (toBottom stored depth) stored

theorem skipsBlanks_toBottom (stored : Realizer) (depth : Nat) : SkipsBlanks (toBottom stored depth) := by
  intro text context source
  cases depth <;> rfl

theorem keepsShape_toBottom (stored : Realizer) (depth : Nat) : KeepsShape (toBottom stored depth) := by
  induction depth with
  | zero =>
    intro node context source
    unfold toBottom bottom
    split <;> rfl
  | succ depth ih => exact ih.level stored

theorem deaf_toBottom {stored : Realizer} (hstored : Deaf stored) (depth : Nat) : Deaf (toBottom stored depth) := by
  induction depth with
  | zero =>
    intro node context source
    unfold toBottom bottom
    rw [Node.isBlank_solid]
    split <;> rfl
  | succ depth ih =>
    exact ih.level (skipsBlanks_toBottom stored depth) (keepsShape_toBottom stored depth) hstored

/-- Within the depth of a tree the bottom is not reached. -/
theorem toBottom_inStep {stored : Realizer} (hstored : InStep (fun _ => (· = ·)) (fun _ => True) stored stored)
    (depth : Nat) :
    InStep (fun _ => (· = ·)) (fun node => node.depth ≤ depth) (toDepth stored depth) (toBottom stored depth) := by
  induction depth with
  | zero =>
    intro n node context s t hnode _
    have := node.depth_pos
    omega
  | succ depth ih =>
    exact .level coupled_eq ih hstored (keepsShape_toDepth stored depth) (within_depth depth)

theorem deaf_nested (limit : Nat) : Deaf (nested limit) := by
  induction limit with
  | zero => exact fun _ _ _ => rfl
  | succ limit ih =>
    intro node context source
    have hstored := nested_inStep coupled_eq limit
    have hle := node.depth_solid_le
    -- the solid tree may be less deep, which makes no difference
    have hnode := toBottom_inStep hstored node.depth 0 node context source source (Nat.le_refl _) rfl
    have hdepth := toDepth_inStep _ hstored node.solid.depth (Nat.le_refl _) hle 0 node.solid context.solid source
      source (Nat.le_refl _) rfl
    have hsolid := toBottom_inStep hstored node.depth 0 node.solid context.solid source source hle rfl
    have hbottom := deaf_toBottom ih node.depth node context source
    rw [← hnode.eq, ← hsolid.eq, ← hdepth.eq] at hbottom
    exact hbottom

end Realizer

/-- **Evaluation does not hear blanks.** -/
theorem realize_deaf : Realizer.Deaf realize := Realizer.deaf_nested nestingLimit

/-- Nodes may be evaluated with their blanks or without, at any depth. -/
theorem evaluate_solid (nodes : List Node) (context : Context) (source : Source) :
    (evaluate nodes context source).Solid solidAll (evaluate (solidAll nodes) context.solid source) :=
  (realize_deaf.inOrder realize_blank realize_keepsShape nodes context source).withResult _

end NumberedMelody
