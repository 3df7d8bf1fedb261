/-
  NumberedMelody/Proofs/Evaluation/Renaming.lean
  ==============================================
  **Evaluation by other names.**  Names are exchanged in a tree, in the context
  and in the steps that a run yields.  A realizer that does not tell names apart
  may be run before the exchange or after it; the ways of running nodes inside
  another node are such if the realizer is, and so is evaluation
  (`renames_realize`).
-/
import NumberedMelody.Proofs.Evaluation.CyclicZip
import NumberedMelody.Proofs.Evaluation.RenamedLists
import NumberedMelody.Proofs.Evaluation.Visits

namespace NumberedMelody

open NumberedMelody.Random (Source)

namespace Renaming

variable (names : Renaming)

/-! ### Trees -/

mutual

def node : Node → Node
  | .event e => .event (names.event e)
  | .numeral r => .numeral (names.numeral r)
  | .randomPitch text o => .randomPitch text (names.overrides o)
  | .randomInteger text o low high => .randomInteger text (names.overrides o) low high
  | .range text o first last => .range text (names.overrides o) first last
  | .expression text o expr => .expression text (names.overrides o) expr
  | .sequence text o isList values => .sequence text (names.overrides o) isList (nodes values)
  | .cycle text values visits => .cycle text (nodes values) visits
  | .subdivision text o values => .subdivision text (names.overrides o) (nodes values)
  | .repetition text replayed values count => .repetition text replayed (nodes values) (node count)
  | .operations text left more => .operations text (node left) (operations more)
  | .euclid text pulses length rotate onset offset => .euclid text pulses length rotate (node onset) (operand offset)
  | .assignment text name eager value => .assignment text name eager (node value)
  | other => other

def nodes : List Node → List Node
  | [] => []
  | first :: more => node first :: nodes more

def operand : Option Node → Option Node
  | none => none
  | some inner => some (node inner)

def operation : Operation Node → Operation Node
  | .binary op right => .binary op (operand right)
  | .map expr => .map expr

def operations : List (Operation Node) → List (Operation Node)
  | [] => []
  | first :: more => operation first :: operations more

end

@[simp] theorem nodes_eq_map (values : List Node) : names.nodes values = values.map names.node := by
  induction values with
  | nil => rfl
  | cons first more ih => rw [nodes, ih, List.map_cons]

@[simp] theorem operand_eq_map (right : Option Node) : names.operand right = right.map names.node := by
  cases right <;> rfl

@[simp] theorem operations_eq_map (steps : List (Operation Node)) :
    names.operations steps = steps.map names.operation := by
  induction steps with
  | nil => rfl
  | cons first more ih => rw [operations, ih, List.map_cons]

@[simp] theorem text_node (n : Node) : (names.node n).text = n.text := by
  cases n with
  | event e => exact names.text_event e
  | _ => rfl

@[simp] theorem isBlank_node (n : Node) : (names.node n).isBlank = n.isBlank := by cases n <;> rfl

@[simp] theorem elements_node (n : Node) : (names.node n).elements = n.elements.map names.node := by
  cases n with
  | sequence text o isList values =>
    simp only [node, Node.elements, nodes_eq_map, List.filter_map, Function.comp_def, isBlank_node]
  | _ => rfl

@[simp] theorem listOverrides_node (n : Node) : (names.node n).listOverrides = names.overrides n.listOverrides := by
  cases n <;> rfl

mutual

@[simp] theorem depth_node : ∀ n : Node, (names.node n).depth = n.depth
  | .sequence _ _ _ values => by simp only [node, Node.depth, depthAll_nodes values]
  | .cycle _ values _ => by simp only [node, Node.depth, depthAll_nodes values]
  | .subdivision _ _ values => by simp only [node, Node.depth, depthAll_nodes values]
  | .repetition _ _ values count => by simp only [node, Node.depth, depthAll_nodes values, depth_node count]
  | .operations _ left steps => by simp only [node, Node.depth, depth_node left, depthSteps_operations steps]
  | .euclid _ _ _ _ onset offset => by simp only [node, Node.depth, depth_node onset, depthOption_operand offset]
  | .assignment _ _ _ value => by simp only [node, Node.depth, depth_node value]
  | .blank _ => rfl
  | .bar _ => rfl
  | .change _ _ => rfl
  | .event _ => rfl
  | .numeral _ => rfl
  | .randomPitch _ _ => rfl
  | .randomInteger _ _ _ _ => rfl
  | .integer _ _ => rfl
  | .range _ _ _ _ => rfl
  | .expression _ _ _ => rfl
  | .variable _ _ => rfl
  | .together _ _ => rfl

theorem depthAll_nodes : ∀ values : List Node, Node.depthAll (names.nodes values) = Node.depthAll values
  | [] => rfl
  | first :: more => by simp only [nodes, Node.depthAll, depth_node first, depthAll_nodes more]

theorem depthOption_operand : ∀ right : Option Node, Node.depthOption (names.operand right) = Node.depthOption right
  | none => rfl
  | some inner => by simp only [operand, Node.depthOption, depth_node inner]

theorem depthStep_operation : ∀ step : Operation Node, Node.depthStep (names.operation step) = Node.depthStep step
  | .binary _ right => by simp only [operation, Node.depthStep, depthOption_operand right]
  | .map _ => rfl

theorem depthSteps_operations :
    ∀ steps : List (Operation Node), Node.depthSteps (names.operations steps) = Node.depthSteps steps
  | [] => rfl
  | first :: more => by
    simp only [operations, Node.depthSteps, depthStep_operation first, depthSteps_operations more]

end

/-! ### Contexts -/

def context (c : Context) : Context :=
  { c with
    options := names.options c.options
    start := names.options c.start
    stored := c.stored.map fun entry => (entry.1, names.node entry.2) }

theorem context_ofOptions (o : Options) : names.context (.ofOptions o) = .ofOptions (names.options o) := rfl

theorem play_numeral (k : KeptNumeral) (c : Context) :
    (names.numeral k).play (names.context c) = ((k.play c).1.map names.chord, names.numeral (k.play c).2) := by
  have hanswer := names.answerFor_numeral k (k.numeral.overrides.apply c.options)
  rw [← names.apply_overrides] at hanswer
  exact hanswer

@[simp] theorem inside_context (c : Context) (o : Overrides) :
    (names.context c).inside (names.overrides o) = names.context (c.inside o) := by
  unfold Context.inside
  simp only [isEmpty_overrides, context, apply_overrides]
  split <;> rfl

@[simp] theorem after_context (c : Context) (change : Change) :
    (names.context c).after change = names.context (c.after change) := by
  cases change <;> rfl

@[simp] theorem assign_context (c : Context) (name : String) (value : Node) :
    (names.context c).assign name (names.node value) = names.context (c.assign name value) := by
  unfold Context.assign
  simp only [context, Named.insert_map]

@[simp] theorem lookup_context (c : Context) (name : String) :
    (names.context c).stored.lookup name = (c.stored.lookup name).map names.node :=
  Named.lookup_map names.node name c.stored

end Renaming

/-! ### Runs -/

namespace Run

variable {σ σ' τ τ' ρ ρ' π π' : Type} (names : Renaming)

/-- The second run leaves and yields what the first one does, by other names. -/
def Renamed (f : σ → σ') (g : ρ → ρ') (x : Run σ ρ) (y : Run σ' ρ') : Prop :=
  y = ⟨f x.tree, names.context x.context, x.source, x.result.map g⟩

namespace Renamed

variable {names} {f : σ → σ'} {u : τ → τ'} {g : ρ → ρ'} {v : π → π'} {x : Run σ ρ} {y : Run σ' ρ'}

theorem withTree (h : x.Renamed names f g y) {k : σ → τ} {l : σ' → τ'} (hk : ∀ t, l (f t) = u (k t)) :
    (x.withTree k).Renamed names u g (y.withTree l) := by
  subst h
  simp only [Renamed, Run.withTree, hk]

theorem withResult (h : x.Renamed names f g y) {k : ρ → Except Failure π} {l : ρ' → Except Failure π'}
    (hk : ∀ value, l (g value) = (k value).map v) : (x.withResult k).Renamed names f v (y.withResult l) := by
  subst h
  obtain ⟨tree, context, source, result⟩ := x
  rcases result with failure | value
  · rfl
  · simp only [Renamed, Run.withResult, Except.map, Except.bind, hk]

theorem back (h : x.Renamed names f g y) (c : Context) : (x.back c).Renamed names f g (y.back (names.context c)) := by
  subst h
  rfl

theorem andThen (h : x.Renamed names f g y) (untouched : τ) {next : ρ → Context → Source → Run τ π}
    {next' : ρ' → Context → Source → Run τ' π'}
    (hnext : ∀ value c source,
      (next value c source).Renamed names u v (next' (g value) (names.context c) source)) :
    (x.andThen untouched next).Renamed names (Prod.map f u) v (y.andThen (u untouched) next') := by
  subst h
  obtain ⟨tree, context, source, result⟩ := x
  rcases result with failure | value
  · rfl
  · simp only [Renamed] at hnext
    simp only [Renamed, Run.andThen, Except.map, hnext, Run.withTree, Prod.map_apply]

theorem onward (h : x.Renamed names f g y) {next : Run σ ρ → ρ → Run σ ρ} {next' : Run σ' ρ' → ρ' → Run σ' ρ'}
    (hnext : ∀ value, (next x value).Renamed names f g (next' y (g value))) :
    (x.onward next).Renamed names f g (y.onward next') := by
  subst h
  obtain ⟨tree, context, source, result⟩ := x
  rcases result with failure | value
  · rfl
  · exact hnext value

theorem eq (h : x.Renamed names f g y) : y = ⟨f x.tree, names.context x.context, x.source, x.result.map g⟩ := h

theorem source_eq (h : x.Renamed names f g y) : y.source = x.source := by rw [h]

theorem tree_eq (h : x.Renamed names f g y) : y.tree = f x.tree := by rw [h]

end Renamed

end Run

namespace Realizer

variable (names : Renaming)

/-- The realizer does not tell names apart: it may be run before they are
    exchanged or after. -/
def Renames (r : Realizer) : Prop :=
  ∀ n c source,
    (r n c source).Renamed names names.node (List.map names.step) (r (names.node n) (names.context c) source)

variable {names} {r : Realizer}

theorem appended_renamed {σ σ' : Type} {f : σ → σ'} {x : Run σ (List Step)} {y : Run σ' (List Step)}
    (h : x.Renamed names f (List.map names.step) y) (steps : List Step) :
    (x.withResult fun others => .ok (steps ++ others)).Renamed names f (List.map names.step)
      (y.withResult fun others => .ok (steps.map names.step ++ others)) :=
  h.withResult fun _ => congrArg Except.ok List.map_append.symm

theorem Renames.inOrder (h : Renames names r) (values : List Node) : ∀ (c : Context) (source : Source),
    (inOrder r values c source).Renamed names (List.map names.node) (List.map names.step)
      (inOrder r (values.map names.node) (names.context c) source) := by
  induction values with
  | nil =>
    intro c source
    rfl
  | cons first more ih =>
    intro c source
    refine ((h first c source).andThen more ?_).withTree fun _ => rfl
    intro steps c source
    exact appended_renamed (ih c source) steps

theorem Renames.events (h : Renames names r) (n : Node) (c : Context) (source : Source) :
    (events r n c source).Renamed names names.node (List.map names.event)
      (events r (names.node n) (names.context c) source) :=
  ((h n c source).withResult names.assignDurations_map).back c

theorem Renames.eventsInOrder (h : Renames names r) (values : List Node) (c : Context) (source : Source) :
    (eventsInOrder r values c source).Renamed names (List.map names.node) (List.map names.event)
      (eventsInOrder r (values.map names.node) (names.context c) source) :=
  ((h.inOrder values c source).withResult names.assignDurations_map).back c

/-! ### Numbers and repeats -/

theorem findSome?_pitch?_map (steps : List Step) :
    (steps.map names.step).findSome? Step.pitch? = (steps.findSome? Step.pitch?).map names.pitch := by
  induction steps with
  | nil => rfl
  | cons first more ih =>
    rw [List.map_cons, List.findSome?_cons, List.findSome?_cons, names.pitch?_step, ih]
    rcases first.pitch? with _ | p <;> rfl

theorem Renames.number (h : Renames names r) (n : Node) (c : Context) (source : Source) :
    (number r n c source).Renamed names names.node id (number r (names.node n) (names.context c) source) := by
  have hother : ∀ {k l : List Step → Except Failure Int}, (∀ steps, l (steps.map names.step) = (k steps).map id) →
      (((r n c source).withResult k).back c).Renamed names names.node id
        (((r (names.node n) (names.context c) source).withResult l).back (names.context c)) :=
    fun hkl => ((h n c source).withResult hkl).back c
  cases n with
  | integer text value => rfl
  | _ =>
    refine hother fun steps => ?_
    rw [findSome?_pitch?_map]
    rcases steps.findSome? Step.pitch? with _ | p
    · exact congrArg (fun text => Except.error (Failure.noNumber text)) (names.text_node _)
    · rfl

theorem Renames.passes (h : Renames names r) (prepare : Source → Source) (c : Context) (times : Nat) :
    ∀ (values : List Node) (source : Source),
      (passes r prepare c times values source).Renamed names (List.map names.node) (List.map names.step)
        (passes r prepare (names.context c) times (values.map names.node) source) := by
  induction times with
  | zero =>
    intro values source
    rfl
  | succ times ih =>
    intro values source
    rw [passes_succ, passes_succ]
    have hpass := (h.inOrder values c (prepare source)).back c
    refine hpass.onward ?_
    intro steps
    rw [hpass.tree_eq, hpass.source_eq]
    exact appended_renamed (ih _ _) steps

theorem Renames.repeated (h : Renames names r) (prepare : Source → Source) (times : Nat) (values : List Node)
    (c : Context) (source : Source) :
    (repeated r prepare times values c source).Renamed names (List.map names.node) (List.map names.step)
      (repeated r prepare times (values.map names.node) (names.context c) source) := by
  cases times with
  | zero => rfl
  | succ times =>
    rw [repeated_succ, repeated_succ]
    have hpass := h.passes id c 1 values source
    refine hpass.onward ?_
    intro steps
    rw [hpass.tree_eq, hpass.source_eq]
    exact appended_renamed (h.passes prepare c times _ _) steps

theorem Renames.repetition (h : Renames names r) (text : String) (replayed : Bool) (values : List Node) (count : Node)
    (c : Context) (source : Source) :
    (repetition r text replayed values count c source).Renamed names names.node (List.map names.step)
      (repetition r text replayed (values.map names.node) (names.node count) (names.context c) source) := by
  unfold Realizer.repetition
  refine ((h.number count c source).andThen (u := List.map names.node) values ?_).withTree ?_
  · intro times c source
    by_cases htimes : times ≤ 0
    · simp only [id, if_pos htimes]
      rfl
    · simp only [id, if_neg htimes]
      cases replayed with
      | false => exact h.repeated id times.toNat values c source
      | true =>
        have hrun := h.repeated Source.rewind times.toNat values c source.record
        simp only [if_true, hrun.eq]
        rfl
  · rintro ⟨count, values⟩
    simp only [Prod.map_apply, Renaming.node, Renaming.nodes_eq_map]

/-! ### List operations -/

theorem Renames.zipped (h : Renames names r) (left : List Node) (right : Option Node) (c : Context) (source : Source) :
    (zipped r left right c source).Renamed names id (List.map names.event)
      (zipped r (left.map names.node) (right.map names.node) (names.context c) source) := by
  have hright : ((right.map names.node).map Node.elements).getD [] = ((right.map Node.elements).getD []).map names.node := by
    rcases right with _ | right
    · rfl
    · exact names.elements_node right
  unfold Realizer.zipped
  simp only [hright, ListArithmetic.map_interleave]
  exact (h.eventsInOrder _ c source).withTree fun _ => rfl

theorem Renames.operand (h : Renames names r) (right : Option Node) (c : Context) (source : Source) :
    (operand r right c source).Renamed names (Option.map names.node) (List.map names.event)
      (operand r (right.map names.node) (names.context c) source) := by
  rcases right with _ | right
  · rfl
  · exact (h.events right c source).withTree fun _ => rfl

theorem operation_binary (op : ListOperator) (right : Option Node) :
    Operation.binary op (right.map names.node) = names.operation (.binary op right) := by
  rw [Renaming.operation, Renaming.operand_eq_map]

theorem map_event_node (events : List Event) :
    (events.map names.event).map Node.event = (events.map Node.event).map names.node := by
  rw [List.map_map, List.map_map]
  rfl

theorem Renames.operation (h : Renames names r) (left : List Event) (step : Operation Node) (c : Context)
    (source : Source) :
    (operation r left step c source).Renamed names names.operation (List.map names.event)
      (operation r (left.map names.event) (names.operation step) (names.context c) source) := by
  cases step with
  | map expr =>
    have hmap := names.mapEvents_map expr c.options left
    simp only [Renaming.operation, Realizer.operation, Run.Renamed]
    exact congrArg (Run.mk _ _ _) hmap
  | binary op right =>
    rw [← operation_binary]
    have hoperand := (h.operand right c source).withTree (u := names.operation) (operation_binary op)
    cases op with
    | zip =>
      simp only [Realizer.operation, map_event_node]
      exact (h.zipped _ right c source).withTree fun _ => operation_binary .zip right
    | vertical =>
      exact hoperand.withResult fun indices => congrArg Except.ok (names.vertical_map left indices)
    | horizontal =>
      exact hoperand.withResult fun indices => congrArg Except.ok (names.horizontal_map left indices)
    | arithmetic op =>
      exact hoperand.withResult fun rights => names.combine_map op c.options left rights

theorem Renames.operationsOn (h : Renames names r) (steps : List (Operation Node)) :
    ∀ (left : List Event) (c : Context) (source : Source),
      (operationsOn r left steps c source).Renamed names (List.map names.operation) (List.map names.event)
        (operationsOn r (left.map names.event) (steps.map names.operation) (names.context c) source) := by
  induction steps with
  | nil =>
    intro left c source
    rfl
  | cons step more ih =>
    intro left c source
    exact ((h.operation left step c source).andThen more fun events c source => ih events c source).withTree
      fun _ => rfl

theorem Renames.operations (h : Renames names r) (text : String) (left : Node) (steps : List (Operation Node))
    (c : Context) (source : Source) :
    (operations r text left steps c source).Renamed names names.node (List.map names.step)
      (operations r text (names.node left) (steps.map names.operation) (names.context c) source) := by
  have hready : ∀ events : List Event, (Except.ok ((events.map names.event).map .ready) : Except Failure (List Step)) =
      (Except.ok (events.map .ready)).map (List.map names.step) :=
    fun events => congrArg Except.ok (names.map_ready events)
  by_cases hzip : ∃ right more, steps = .binary .zip right :: more
  · obtain ⟨right, more, rfl⟩ := hzip
    rw [List.map_cons, ← operation_binary, operations_zip, operations_zip, names.elements_node]
    refine (((h.zipped left.elements right c source).andThen (u := List.map names.operation) more
      fun events c source => h.operationsOn more events c source).withTree ?_).withResult hready
    rintro ⟨-, more⟩
    simp only [Prod.map_apply, Renaming.node, Renaming.operations_eq_map, List.map_cons, ← operation_binary]
  · have hplain : ∀ right more, steps ≠ .binary .zip right :: more := fun right more heq => hzip ⟨right, more, heq⟩
    have hplain' : ∀ right more, steps.map names.operation ≠ .binary .zip right :: more := by
      rintro right more heq
      obtain ⟨step, rest, rfl, hstep, -⟩ := List.map_eq_cons_iff.mp heq
      cases step with
      | map expr => cases hstep
      | binary op operand =>
        simp only [Renaming.operation, Operation.binary.injEq] at hstep
        exact hplain operand rest (by rw [hstep.1])
    rw [operations_events text left hplain, operations_events text _ hplain']
    refine (((h.events left c source).andThen (u := List.map names.operation) steps
      fun events c source => h.operationsOn steps events c source).withTree ?_).withResult hready
    rintro ⟨left, steps⟩
    simp only [Prod.map_apply, Renaming.node, Renaming.operations_eq_map]

/-! ### Dealing lists out -/

end Realizer

def Renaming.deck (names : Renaming) (d : Realizer.Deck) : Realizer.Deck :=
  ⟨d.elements.map names.node, d.dealt, names.context d.context⟩

namespace Realizer

variable {names : Renaming} {r : Realizer}

theorem ofList_renamed (n : Node) (c : Context) :
    Deck.ofList (names.node n) (names.context c) = names.deck (Deck.ofList n c) := by
  simp only [Deck.ofList, Renaming.deck, Renaming.elements_node, Renaming.listOverrides_node, Renaming.inside_context]

theorem Renames.deal (h : Renames names r) (d : Deck) (source : Source) :
    (Deck.deal r d source).Renamed names names.deck (List.map names.step) (Deck.deal r (names.deck d) source) := by
  unfold Deck.deal
  simp only [Renaming.deck, List.length_map, List.getElem?_map]
  rcases d.elements[d.dealt % d.elements.length]? with _ | element
  · rfl
  · have hrun := h element d.context source
    refine hrun.withTree ?_
    intro element
    simp only [Renaming.deck, List.map_set, hrun.eq]

theorem Renames.beat (h : Renames names r) (silence : Step) (hit : Bool) (on off : Deck) (source : Source) :
    (beat r silence hit on off source).Renamed names (Prod.map names.deck names.deck) (List.map names.step)
      (beat r (names.step silence) hit (names.deck on) (names.deck off) source) := by
  unfold Realizer.beat
  rw [show (names.deck off).elements = off.elements.map names.node from rfl, List.isEmpty_map]
  split
  · exact (h.deal on source).withTree fun _ => rfl
  · split
    · rfl
    · exact (h.deal off source).withTree fun _ => rfl

theorem Renames.dealt (h : Renames names r) (silence : Step) (rhythm : List Bool) :
    ∀ (on off : Deck) (source : Source),
      (dealt r silence rhythm on off source).Renamed names (Prod.map names.deck names.deck) (List.map names.step)
        (dealt r (names.step silence) rhythm (names.deck on) (names.deck off) source) := by
  induction rhythm with
  | nil =>
    intro on off source
    rfl
  | cons hit more ih =>
    intro on off source
    rw [dealt_cons, dealt_cons]
    have hbeat := h.beat silence hit on off source
    refine hbeat.onward ?_
    intro steps
    rw [hbeat.tree_eq, hbeat.source_eq]
    exact appended_renamed (ih _ _ _) steps

theorem refill_map (values : List Node) : ∀ elements : List Node,
    refill (values.map names.node) (elements.map names.node) = (refill values elements).map names.node := by
  induction values with
  | nil =>
    intro elements
    rfl
  | cons value values ih =>
    intro elements
    simp only [List.map_cons, refill, names.isBlank_node]
    by_cases hblank : value.isBlank = true
    · rw [if_pos hblank, if_pos hblank, ih, List.map_cons]
    · rw [if_neg hblank, if_neg hblank]
      cases elements with
      | nil => exact congrArg (names.node value :: ·) (ih [])
      | cons element elements => exact congrArg (names.node element :: ·) (ih elements)

theorem withElements_renamed (n : Node) (elements : List Node) :
    withElements (names.node n) (elements.map names.node) = names.node (withElements n elements) := by
  cases n with
  | sequence text o isList values =>
    simp only [Renaming.node, Renaming.nodes_eq_map, withElements, refill_map]
  | _ => cases elements <;> rfl

theorem Renames.euclid (h : Renames names r) (text : String) (pulses length : Nat) (rotate : Int) (onset : Node)
    (offset : Option Node) (c : Context) (source : Source) :
    (euclid r text pulses length rotate onset offset c source).Renamed names names.node (List.map names.step)
      (euclid r text pulses length rotate (names.node onset) (offset.map names.node) (names.context c) source) := by
  have hoff : ((offset.map names.node).map (Deck.ofList · (names.context c))).getD ⟨[], 0, names.context c⟩ =
      names.deck ((offset.map (Deck.ofList · c)).getD ⟨[], 0, c⟩) := by
    rcases offset with _ | offset
    · rfl
    · exact ofList_renamed offset c
  unfold Realizer.euclid
  simp only [hoff, ofList_renamed, names.elements_node, List.isEmpty_map]
  split
  · exact congrArg (Run.mk · _ _ _) (by rw [Renaming.node, Renaming.operand_eq_map])
  · refine ((h.dealt _ _ _ _ source).back c).withTree ?_
    rintro ⟨on, off⟩
    have hoffset : (offset.map names.node).map (withElements · (names.deck off).elements) =
        (offset.map (withElements · off.elements)).map names.node := by
      rcases offset with _ | offset
      · rfl
      · exact congrArg some (withElements_renamed offset off.elements)
    simp only [Prod.map_apply, hoffset, Renaming.node, Renaming.operand_eq_map]
    rw [show (names.deck on).elements = on.elements.map names.node from rfl, withElements_renamed]

/-! ### Variables -/

theorem Renames.use (h : Renames names r) (name text : String) (c : Context) (source : Source) :
    (use r name text c source).Renamed names id (List.map names.step) (use r name text (names.context c) source) := by
  unfold Realizer.use
  rw [names.lookup_context]
  rcases c.stored.lookup name with _ | value
  · simp only [Option.map_none, show (names.context c).options.bindings = c.options.bindings from rfl]
    rcases c.options.bindings.lookup name with _ | binding
    · rfl
    · cases binding <;> rfl
  · exact (h value c source).withTree fun _ => rfl

theorem Renames.layers (h : Renames names r) (c : Context) (voices : List String) : ∀ source : Source,
    (layers r c voices source).Renamed names id (List.map (List.map names.event))
      (layers r (names.context c) voices source) := by
  induction voices with
  | nil =>
    intro source
    rfl
  | cons name more ih =>
    intro source
    have hlayer := ((h.use name name c source).withResult (v := List.map names.event) names.assignDurations_map).back c
    unfold Realizer.layers
    simp only [hlayer.eq]
    rcases (((Realizer.use r name name c source).withResult assignDurations).back c).result with failure | layer
    · rfl
    · exact (ih _).withResult fun _ => rfl

/-! ### Levels -/

theorem Renames.visit (h : Renames names r) (text : String) (values : List Node) (visits : Nat) (c : Context)
    (source : Source) :
    (visit r text values visits c source).Renamed names names.node (List.map names.step)
      (visit r text (values.map names.node) visits (names.context c) source) := by
  unfold Realizer.visit
  simp only [List.length_map, List.getElem?_map]
  rcases values[visits % values.length]? with _ | value
  · exact congrArg (Run.mk · _ _ _) (by rw [Renaming.node, Renaming.nodes_eq_map])
  · refine (h value c source).withTree ?_
    intro value
    rw [Renaming.node, Renaming.nodes_eq_map, List.map_set]

theorem Renames.assignment (h : Renames names r) (text name : String) (eager : Bool) (value : Node) (c : Context)
    (source : Source) :
    (assignment r text name eager value c source).Renamed names names.node (List.map names.step)
      (assignment r text name eager (names.node value) (names.context c) source) := by
  unfold Realizer.assignment
  split
  · rw [(h.events value c source).eq]
    generalize Realizer.events r value c source = run
    obtain ⟨tree, context, source, result⟩ := run
    rcases result with failure | played
    · rfl
    · have hstored : Node.sequence (names.node value).text {} true ((played.map names.event).map .event) =
          names.node (.sequence value.text {} true (played.map .event)) := by
        rw [Renaming.node, Renaming.nodes_eq_map, map_event_node, names.text_node]
        rfl
      simp only [Except.map, hstored, names.assign_context]
      rfl
  · simp only [names.assign_context]
    rfl

theorem Renames.level {inner stored : Realizer} (hinner : Renames names inner) (hstored : Renames names stored) :
    Renames names (level inner stored) := by
  intro n c source
  cases n with
  | blank text => rfl
  | bar text => rfl
  | change text change => exact congrArg (Run.mk _ · _ _) (names.after_context c change)
  | event e =>
    have hagainst := names.against_event c.options e
    simp only [Realizer.level, Renaming.node, Renaming.context, hagainst]
    rfl
  | numeral k =>
    have hplay := names.play_numeral k c
    simp only [Realizer.level, Renaming.node, hplay]
    generalize k.play c = played
    obtain ⟨failure | chord, k⟩ := played <;> rfl
  | randomPitch text o =>
    have hsize : (((names.overrides o).apply (names.options c.options)).scale.getD (.named Scale.ionian)).size =
        ((o.apply c.options).scale.getD (.named Scale.ionian)).size := by
      rw [names.apply_overrides]
      rcases hscale : (o.apply c.options).scale with _ | scale <;> simp [Renaming.options, hscale]
    have hpitch := fun degree => names.generated_pitch degree text o c.options
    simp only [Realizer.level, Renaming.node, Renaming.context, hsize, hpitch]
    rfl
  | randomInteger text o low high =>
    have hpitch := fun degree => names.generated_pitch degree text o c.options
    simp only [Realizer.level, Renaming.node, Renaming.context, hpitch]
    rfl
  | integer text value =>
    have hpitch := names.generated_pitch value text {} c.options
    rw [names.overrides_empty] at hpitch
    simp only [Realizer.level, Renaming.node, Renaming.context, hpitch]
    rfl
  | range text o first last =>
    have hpitches := names.rangePitches_overrides o first last c.options
    simp only [Realizer.level, Renaming.node, Renaming.context, hpitches, List.map_map, Run.Renamed, Except.map]
    rfl
  | expression text o expr =>
    have hpitch := fun degree => names.generated_pitch degree text o c.options
    simp only [Realizer.level, Renaming.node, Renaming.context, hpitch]
    rcases expr.eval none with failure | value <;> rfl
  | sequence text o isList values =>
    simp only [Renaming.node, Renaming.nodes_eq_map]
    simp only [Realizer.level, names.inside_context]
    refine ((hinner.inOrder values (c.inside o) source).back c).withTree ?_
    intro values
    rw [Renaming.node, Renaming.nodes_eq_map]
  | cycle text values visits =>
    simp only [Renaming.node, Renaming.nodes_eq_map]
    exact hinner.visit text values visits c source
  | subdivision text o values =>
    simp only [Renaming.node, Renaming.nodes_eq_map]
    simp only [Realizer.level, names.inside_context]
    refine (((hinner.inOrder values (c.inside o) source).withResult ?_).back c).withTree ?_
    · intro steps
      simp only [Except.map, List.map_cons, List.map_nil, Renaming.step, Renaming.steps_eq_map]
      rfl
    · intro values
      rw [Renaming.node, Renaming.nodes_eq_map]
  | repetition text replayed values count =>
    simp only [Renaming.node, Renaming.nodes_eq_map]
    exact hinner.repetition text replayed values count c source
  | operations text left steps =>
    simp only [Renaming.node, Renaming.operations_eq_map]
    exact hinner.operations text left steps c source
  | euclid text pulses length rotate onset offset =>
    simp only [Renaming.node, Renaming.operand_eq_map]
    exact hinner.euclid text pulses length rotate onset offset c source
  | assignment text name eager value => exact hinner.assignment text name eager value c source
  | «variable» text name =>
    have huse := hstored.use name text c source
    unfold Realizer.level
    exact huse.withTree fun _ => rfl
  | together text voices =>
    have hlayers := hstored.layers c voices source
    unfold Realizer.level
    refine (hlayers.withResult ?_).withTree ?_
    · intro layers
      simp only [Except.map, List.map_cons, List.map_nil, Renaming.step, Renaming.event, Renaming.layers_eq_map]
    · exact fun _ => rfl

theorem renames_exhausted : Renames names exhausted := fun _ _ _ => rfl

theorem renames_toDepth {stored : Realizer} (h : Renames names stored) (depth : Nat) :
    Renames names (toDepth stored depth) := by
  induction depth with
  | zero => exact renames_exhausted
  | succ depth ih => exact ih.level h

theorem renames_nested (limit : Nat) : Renames names (nested limit) := by
  induction limit with
  | zero => exact renames_exhausted
  | succ limit ih =>
    intro n c source
    simp only [nested, names.depth_node]
    exact renames_toDepth ih n.depth n c source

end Realizer

/-- **Evaluation does not tell names apart.** -/
theorem renames_realize (names : Renaming) : Realizer.Renames names realize := Realizer.renames_nested nestingLimit

/-- A pattern evaluated by other names leaves and yields the same, by other names. -/
theorem evaluate_renamed (names : Renaming) (nodes : List Node) (c : Context) (source : Source) :
    (evaluate nodes c source).Renamed names (List.map names.node) (List.map names.event)
      (evaluate (nodes.map names.node) (names.context c) source) :=
  ((renames_realize names).inOrder nodes c source).withResult names.assignDurations_map

end NumberedMelody
