/-
  NumberedMelody/Proofs/Evaluation/Lockstep.lean
  ==============================================
  **Two evaluations in step.**  Evaluation looks at a source only through its
  draws, and starts, rewinds and drops tapes of its own.  Two sources that give
  the same draws, and keep doing so whatever is done to both of them (`Coupled`),
  can therefore not be told apart: the runs over them leave the same tree and
  context and yield the same (`nested_inStep`).

  The two realizers need not be the same either, as long as they agree on the
  nodes that are run; which nodes these are is a predicate with the closure
  properties of `Within`.
-/
import NumberedMelody.Proofs.Evaluation.Visits

namespace NumberedMelody

open NumberedMelody.Random (Source)
open Node (unplayedAll)

/-- The node itself draws at random. -/
def Node.isRandom : Node → Bool
  | .randomPitch _ _ => true
  | .randomInteger _ _ _ _ => true
  | _ => false

/-! ### Matching runs -/

/-- Two runs leave the same tree and context and yield the same, and their
    sources are related. -/
structure Run.Matches {σ ρ : Type} (S : Source → Source → Prop) (x y : Run σ ρ) : Prop where
  tree : x.tree = y.tree
  context : x.context = y.context
  source : S x.source y.source
  result : x.result = y.result

namespace Run.Matches

variable {σ σ' ρ ρ' : Type} {S : Source → Source → Prop} {x y : Run σ ρ}

theorem withTree (h : x.Matches S y) (f : σ → σ') : (x.withTree f).Matches S (y.withTree f) where
  tree := congrArg f h.tree
  context := h.context
  source := h.source
  result := h.result

theorem withResult (h : x.Matches S y) (f : ρ → Except Failure ρ') :
    (x.withResult f).Matches S (y.withResult f) where
  tree := h.tree
  context := h.context
  source := h.source
  result := congrArg (·.bind f) h.result

theorem back (h : x.Matches S y) (context : Context) : (x.back context).Matches S (y.back context) where
  tree := h.tree
  context := rfl
  source := h.source
  result := h.result

theorem andThen (h : x.Matches S y) (untouched : σ') {next next' : ρ → Context → Source → Run σ' ρ'}
    (hnext : ∀ value context s t, S s t → (next value context s).Matches S (next' value context t)) :
    (x.andThen untouched next).Matches S (y.andThen untouched next') := by
  unfold Run.andThen
  rw [h.result]
  cases y.result with
  | error failure => exact ⟨by rw [h.tree], h.context, h.source, rfl⟩
  | ok value =>
    have hsecond := hnext value x.context x.source y.source h.source
    rw [h.context] at hsecond
    simp only [h.tree, h.context]
    exact hsecond.withTree _

theorem onward (h : x.Matches S y) {next next' : Run σ ρ → ρ → Run σ ρ}
    (hnext : ∀ value, (next x value).Matches S (next' y value)) : (x.onward next).Matches S (y.onward next') := by
  unfold Run.onward
  rw [h.result]
  cases y.result with
  | error failure => exact h
  | ok value => exact hnext value

/-- Runs that leave the very same source are the same. -/
theorem eq (h : x.Matches (· = ·) y) : x = y := by
  obtain ⟨htree, hcontext, hsource, hresult⟩ := h
  cases x
  cases y
  simp only at htree hcontext hsource hresult
  rw [htree, hcontext, hsource, hresult]

end Run.Matches

namespace Realizer

/-! ### Sources that cannot be told apart -/

/-- Related sources stay related when tapes are started, rewound and dropped on
    both of them; the relation says how many have been started since. -/
structure Taped (R : Nat → Source → Source → Prop) : Prop where
  record : ∀ {n s t}, R n s t → R (n + 1) s.record t.record
  rewind : ∀ {n s t}, R (n + 1) s t → R (n + 1) s.rewind t.rewind
  finish : ∀ {n s t}, R (n + 1) s t → R n s.finish t.finish

/-- Related sources give the same draw, and stay related whatever is done to
    both of them. -/
structure Coupled (R : Nat → Source → Source → Prop) : Prop extends Taped R where
  draw : ∀ {n s t}, R n s t → s.draw.1 = t.draw.1 ∧ R n s.draw.2 t.draw.2

variable {R : Nat → Source → Source → Prop} {n : Nat} {s t : Source}

theorem Coupled.integer (hR : Coupled R) (low high : Int) (hst : R n s t) :
    (s.integer low high).1 = (t.integer low high).1 ∧ R n (s.integer low high).2 (t.integer low high).2 := by
  obtain ⟨hdraw, hleft⟩ := hR.draw hst
  simp only [Source.integer, hdraw]
  exact ⟨trivial, hleft⟩

theorem Coupled.index (hR : Coupled R) (length : Nat) (hst : R n s t) :
    (s.index length).1 = (t.index length).1 ∧ R n (s.index length).2 (t.index length).2 := by
  unfold Source.index
  by_cases hlength : length = 0
  · simp only [if_pos hlength]
    exact ⟨trivial, hst⟩
  · obtain ⟨hdraw, hleft⟩ := hR.draw hst
    simp only [if_neg hlength, hdraw]
    exact ⟨trivial, hleft⟩

/-- A source is coupled with itself. -/
theorem coupled_eq : Coupled fun _ => (· = ·) where
  draw := fun h => by subst h; exact ⟨rfl, rfl⟩
  record := fun h => by rw [h]
  rewind := fun h => by rw [h]
  finish := fun h => by rw [h]

/-! ### Realizers in step -/

/-- The two realizers agree on the nodes of `P`, over related sources. -/
def InStep (R : Nat → Source → Source → Prop) (P : Node → Prop) (r r' : Realizer) : Prop :=
  ∀ n node context s t, P node → R n s t → (r node context s).Matches (R n) (r' node context t)

/-- The nodes that are run inside a node of `P` are nodes of `Q`, and so are the
    elements and events that stand in for them, whatever visits and chords they
    hold. -/
structure Within (P Q : Node → Prop) : Prop where
  children : ∀ {node}, P node → ∀ child ∈ node.children, Q child
  elements : ∀ {node}, Q node → ∀ element ∈ node.elements, Q element
  event : ∀ {node}, Q node → ∀ e, Q (.event e)
  visits : ∀ {node other : Node}, Q node → other.unplayed = node.unplayed → Q other

theorem Within.all (P : Node → Prop) : Within P fun _ => True where
  children := fun _ _ _ => trivial
  elements := fun _ _ _ => trivial
  event := fun _ _ => trivial
  visits := fun _ _ => trivial

variable {P Q : Node → Prop} {r r' : Realizer}

theorem Within.visitsAll (hQ : Within P Q) {nodes others : List Node} (hnodes : ∀ node ∈ nodes, Q node)
    (hvisits : unplayedAll others = unplayedAll nodes) : ∀ node ∈ others, Q node :=
  Node.forall_of_unplayedAll_eq hQ.visits hnodes hvisits

theorem InStep.inOrder (h : InStep R Q r r') (nodes : List Node) :
    ∀ (context : Context) (s t : Source), (∀ node ∈ nodes, Q node) → R n s t →
      (inOrder r nodes context s).Matches (R n) (inOrder r' nodes context t) := by
  induction nodes with
  | nil =>
    intro context s t _ hst
    exact ⟨rfl, rfl, hst, rfl⟩
  | cons node more ih =>
    intro context s t hnodes hst
    have hnode := h n node context s t (hnodes node (List.mem_cons_self ..)) hst
    refine (hnode.andThen more ?_).withTree _
    intro steps context s t hst
    exact (ih context s t (fun node hnode => hnodes node (List.mem_cons_of_mem _ hnode)) hst).withResult _

theorem InStep.events (h : InStep R Q r r') {node : Node} (context : Context) (hnode : Q node) (hst : R n s t) :
    (events r node context s).Matches (R n) (events r' node context t) :=
  ((h n node context s t hnode hst).withResult _).back _

/-! ### Numbers and repeats -/

theorem InStep.number (h : InStep R Q r r') {node : Node} (context : Context) (hnode : Q node) (hst : R n s t) :
    (number r node context s).Matches (R n) (number r' node context t) := by
  cases node with
  | integer text value => exact ⟨rfl, rfl, hst, rfl⟩
  | _ => exact ((h n _ context s t hnode hst).withResult _).back _

theorem InStep.passes (h : InStep R Q r r') (keeps : KeepsShape r) (hQ : Within P Q)
    {prepare : Source → Source} (hprepare : ∀ s t, R n s t → R n (prepare s) (prepare t))
    (context : Context) (times : Nat) :
    ∀ (nodes : List Node) (s t : Source), (∀ node ∈ nodes, Q node) → R n s t →
      (passes r prepare context times nodes s).Matches (R n) (passes r' prepare context times nodes t) := by
  induction times with
  | zero =>
    intro nodes s t _ hst
    exact ⟨rfl, rfl, hst, rfl⟩
  | succ times ih =>
    intro nodes s t hnodes hst
    have hpass := (h.inOrder nodes context _ _ hnodes (hprepare s t hst)).back context
    have hvisits := keeps.inOrder nodes context (prepare s)
    rw [passes_succ, passes_succ]
    refine hpass.onward fun steps => ?_
    simp only [← hpass.tree]
    exact (ih _ _ _ (hQ.visitsAll hnodes hvisits) hpass.source).withResult _

theorem InStep.repeated (h : InStep R Q r r') (keeps : KeepsShape r) (hQ : Within P Q)
    {prepare : Source → Source} (hprepare : ∀ s t, R n s t → R n (prepare s) (prepare t))
    (times : Nat) {nodes : List Node} (context : Context) (hnodes : ∀ node ∈ nodes, Q node)
    (hst : R n s t) :
    (repeated r prepare times nodes context s).Matches (R n) (repeated r' prepare times nodes context t) := by
  cases times with
  | zero => exact ⟨rfl, rfl, hst, rfl⟩
  | succ times =>
    have hid : ∀ s t, R n s t → R n (id s) (id t) := fun _ _ hst => hst
    have hpass := h.passes keeps hQ hid context 1 nodes s t hnodes hst
    have hvisits := keeps.passes id context 1 nodes s
    rw [repeated_succ, repeated_succ]
    refine hpass.onward fun steps => ?_
    simp only [← hpass.tree]
    exact (h.passes keeps hQ hprepare context times _ _ _ (hQ.visitsAll hnodes hvisits) hpass.source).withResult _

theorem InStep.repetition (h : InStep R Q r r') (keeps : KeepsShape r) (hQ : Within P Q) (hR : Taped R)
    (text : String) (replayed : Bool) {values : List Node} {count : Node} (context : Context)
    (hvalues : ∀ node ∈ values, Q node) (hcount : Q count) (hst : R n s t) :
    (repetition r text replayed values count context s).Matches (R n)
      (repetition r' text replayed values count context t) := by
  unfold Realizer.repetition
  refine ((h.number context hcount hst).andThen values ?_).withTree _
  intro times context s t hst
  by_cases htimes : times ≤ 0
  · simp only [if_pos htimes]
    exact ⟨rfl, rfl, hst, rfl⟩
  · simp only [if_neg htimes]
    cases replayed with
    | false => exact h.repeated keeps hQ (fun _ _ hst => hst) times.toNat context hvalues hst
    | true =>
      have hrun := h.repeated keeps hQ (fun _ _ hst => hR.rewind hst) times.toNat context hvalues
        (hR.record hst)
      exact ⟨hrun.tree, hrun.context, hR.finish hrun.source, hrun.result⟩

/-! ### List operations -/

theorem InStep.zipped (h : InStep R Q r r') (hQ : Within P Q) {left : List Node} {right : Option Node}
    (context : Context) (hleft : ∀ node ∈ left, Q node) (hright : ∀ node ∈ right, Q node) (hst : R n s t) :
    (zipped r left right context s).Matches (R n) (zipped r' left right context t) := by
  unfold Realizer.zipped
  refine (((h.inOrder _ context s t ?_ hst).withResult _).back _).withTree _
  intro node hnode
  rcases mem_or_mem_of_mem_interleave hnode with hmem | hmem
  · exact hleft node hmem
  · cases right with
    | none => simp at hmem
    | some right => exact hQ.elements (hright right rfl) node hmem

theorem InStep.operand (h : InStep R Q r r') {right : Option Node} (context : Context)
    (hright : ∀ node ∈ right, Q node) (hst : R n s t) :
    (operand r right context s).Matches (R n) (operand r' right context t) := by
  cases right with
  | none => exact ⟨rfl, rfl, hst, rfl⟩
  | some node => exact (h.events context (hright node rfl) hst).withTree _

theorem InStep.operation (h : InStep R Q r r') (hQ : Within P Q) (left : List Event) {step : Operation Node}
    (context : Context) (hevent : ∀ e, Q (.event e)) (hstep : ∀ node ∈ step.right?, Q node) (hst : R n s t) :
    (operation r left step context s).Matches (R n) (operation r' left step context t) := by
  cases step with
  | map expr => exact ⟨rfl, rfl, hst, rfl⟩
  | binary op right =>
    cases op with
    | zip =>
      have hright : ∀ node ∈ right, Q node := hstep
      simp only [Realizer.operation]
      refine (h.zipped hQ context ?_ hright hst).withTree _
      intro node hnode
      obtain ⟨e, -, rfl⟩ := List.mem_map.mp hnode
      exact hevent e
    | vertical => exact ((h.operand context hstep hst).withTree _).withResult _
    | horizontal => exact ((h.operand context hstep hst).withTree _).withResult _
    | arithmetic op => exact ((h.operand context hstep hst).withTree _).withResult _

theorem InStep.operationsOn (h : InStep R Q r r') (hQ : Within P Q) (hevent : ∀ e, Q (.event e))
    (steps : List (Operation Node)) :
    ∀ (left : List Event) (context : Context) (s t : Source),
      (∀ step ∈ steps, ∀ node ∈ step.right?, Q node) → R n s t →
      (operationsOn r left steps context s).Matches (R n) (operationsOn r' left steps context t) := by
  induction steps with
  | nil =>
    intro left context s t _ hst
    exact ⟨rfl, rfl, hst, rfl⟩
  | cons step more ih =>
    intro left context s t hsteps hst
    have hstep := h.operation hQ left context hevent (hsteps step (List.mem_cons_self ..)) hst
    refine (hstep.andThen more ?_).withTree _
    intro events context s t hst
    exact ih events context s t (fun step hstep => hsteps step (List.mem_cons_of_mem _ hstep)) hst

theorem InStep.operations (h : InStep R Q r r') (hQ : Within P Q) (text : String) {left : Node}
    {steps : List (Operation Node)} (context : Context) (hleft : Q left)
    (hsteps : ∀ step ∈ steps, ∀ node ∈ step.right?, Q node) (hst : R n s t) :
    (operations r text left steps context s).Matches (R n) (operations r' text left steps context t) := by
  have hrest : ∀ (rest : List (Operation Node)), (∀ step ∈ rest, step ∈ steps) →
      ∀ events context s t, R n s t →
        (Realizer.operationsOn r events rest context s).Matches (R n)
          (Realizer.operationsOn r' events rest context t) := by
    intro rest hrest events context s t hst
    exact h.operationsOn hQ (hQ.event hleft) rest events context s t
      (fun step hstep => hsteps step (hrest step hstep)) hst
  unfold Realizer.operations
  refine Run.Matches.withResult ?_ _
  split
  · next right more =>
    have hzip := h.zipped hQ context (hQ.elements hleft) (hsteps _ (List.mem_cons_self ..)) hst
    exact (hzip.andThen more (hrest more fun step hstep => List.mem_cons_of_mem _ hstep)).withTree _
  · exact ((h.events context hleft hst).andThen steps (hrest steps fun step hstep => hstep)).withTree _

/-! ### Lists dealt out -/

theorem InStep.deal (h : InStep R Q r r') {deck : Deck} (hdeck : ∀ node ∈ deck.elements, Q node)
    (hst : R n s t) : (deck.deal r s).Matches (R n) (deck.deal r' t) := by
  unfold Deck.deal
  cases hplace : deck.elements[deck.dealt % deck.elements.length]? with
  | none =>
    simp only [hplace]
    exact ⟨rfl, rfl, hst, rfl⟩
  | some element =>
    have hrun := h n element deck.context s t (hdeck element (List.mem_of_getElem? hplace)) hst
    simp only [hplace, hrun.context]
    exact hrun.withTree _

theorem InStep.beat (h : InStep R Q r r') (silence : Step) (hit : Bool) {on off : Deck}
    (hon : ∀ node ∈ on.elements, Q node) (hoff : ∀ node ∈ off.elements, Q node) (hst : R n s t) :
    (beat r silence hit on off s).Matches (R n) (beat r' silence hit on off t) := by
  unfold Realizer.beat
  cases hit with
  | true =>
    simp only [if_true]
    exact (h.deal hon hst).withTree _
  | false =>
    simp only [Bool.false_eq_true, if_false]
    by_cases hempty : off.elements.isEmpty
    · simp only [if_pos hempty]
      exact ⟨rfl, rfl, hst, rfl⟩
    · simp only [if_neg hempty]
      exact (h.deal hoff hst).withTree _

theorem InStep.dealt (h : InStep R Q r r') (keeps : KeepsShape r) (hQ : Within P Q) (silence : Step)
    (rhythm : List Bool) :
    ∀ (on off : Deck) (s t : Source), (∀ node ∈ on.elements, Q node) → (∀ node ∈ off.elements, Q node) →
      R n s t → (dealt r silence rhythm on off s).Matches (R n) (dealt r' silence rhythm on off t) := by
  induction rhythm with
  | nil =>
    intro on off s t _ _ hst
    exact ⟨rfl, rfl, hst, rfl⟩
  | cons hit more ih =>
    intro on off s t hon hoff hst
    have hbeat := h.beat silence hit hon hoff hst
    obtain ⟨hvisitsOn, hvisitsOff⟩ := keeps.beat silence hit on off s
    rw [dealt_cons, dealt_cons]
    refine hbeat.onward fun steps => ?_
    simp only [← hbeat.tree]
    exact (ih _ _ _ _ (hQ.visitsAll hon hvisitsOn) (hQ.visitsAll hoff hvisitsOff) hbeat.source).withResult _

theorem InStep.euclid (h : InStep R Q r r') (keeps : KeepsShape r) (hQ : Within P Q) (text : String)
    (pulses length : Nat) (rotate : Int) {onset : Node} {offset : Option Node} (context : Context)
    (honset : Q onset) (hoffset : ∀ node ∈ offset, Q node) (hst : R n s t) :
    (euclid r text pulses length rotate onset offset context s).Matches (R n)
      (euclid r' text pulses length rotate onset offset context t) := by
  unfold Realizer.euclid
  by_cases hempty : onset.elements.isEmpty
  · simp only [if_pos hempty]
    exact ⟨rfl, rfl, hst, rfl⟩
  · simp only [if_neg hempty]
    have hoff : ∀ node ∈ ((offset.map (Deck.ofList · context)).getD ⟨[], 0, context⟩).elements, Q node := by
      intro node hnode
      cases offset with
      | none => simp at hnode
      | some offset => exact hQ.elements (hoffset offset rfl) node hnode
    exact ((h.dealt keeps hQ _ _ (Deck.ofList onset context) _ s t (hQ.elements honset) hoff
      hst).back context).withTree _

/-! ### Variables -/

theorem InStep.use (h : InStep R (fun _ => True) r r') (name text : String) (context : Context)
    (hst : R n s t) : (use r name text context s).Matches (R n) (use r' name text context t) := by
  unfold Realizer.use
  cases context.stored.lookup name with
  | some node => exact (h n node context s t trivial hst).withTree _
  | none => exact ⟨rfl, rfl, hst, rfl⟩

theorem InStep.layers (h : InStep R (fun _ => True) r r') (context : Context) (names : List String) :
    ∀ s t : Source, R n s t → (layers r context names s).Matches (R n) (layers r' context names t) := by
  induction names with
  | nil =>
    intro s t hst
    exact ⟨rfl, rfl, hst, rfl⟩
  | cons name more ih =>
    intro s t hst
    have hrun := ((h.use name name context hst).withResult assignDurations).back context
    unfold Realizer.layers
    simp only [hrun.result]
    cases hresult : (((Realizer.use r' name name context t).withResult assignDurations).back context).result with
    | error failure => exact ⟨rfl, rfl, hrun.source, rfl⟩
    | ok layer => exact (ih _ _ hrun.source).withResult _

/-! ### One level -/

theorem InStep.visit (h : InStep R Q r r') (text : String) {values : List Node} (visits : Nat)
    (context : Context) (hvalues : ∀ node ∈ values, Q node) (hst : R n s t) :
    (visit r text values visits context s).Matches (R n) (visit r' text values visits context t) := by
  unfold Realizer.visit
  cases hplace : values[visits % values.length]? with
  | none =>
    simp only [hplace]
    exact ⟨rfl, rfl, hst, rfl⟩
  | some value =>
    simp only [hplace]
    exact (h n value context s t (hvalues value (List.mem_of_getElem? hplace)) hst).withTree _

theorem InStep.assignment (h : InStep R Q r r') (text name : String) (eager : Bool) {value : Node}
    (context : Context) (hvalue : Q value) (hst : R n s t) :
    (assignment r text name eager value context s).Matches (R n)
      (assignment r' text name eager value context t) := by
  unfold Realizer.assignment
  cases eager with
  | false => exact ⟨rfl, rfl, hst, rfl⟩
  | true =>
    have hrun := h.events context hvalue hst
    simp only [if_true, hrun.result, hrun.tree]
    cases hresult : (Realizer.events r' value context t).result with
    | error failure => exact ⟨rfl, rfl, hrun.source, rfl⟩
    | ok played => exact ⟨rfl, rfl, hrun.source, rfl⟩

/-- One level keeps realizers in step on the nodes that draw nothing themselves. -/
theorem InStep.level_of_not_random {inner inner' stored stored' : Realizer} (hR : Taped R)
    (h : InStep R Q inner inner') (hstored : InStep R (fun _ => True) stored stored') (keeps : KeepsShape inner)
    (hQ : Within P Q) :
    InStep R (fun node => P node ∧ node.isRandom = false) (level inner stored) (level inner' stored') := by
  rintro n node context s t ⟨hnode, hrandom⟩ hst
  have hchildren := hQ.children hnode
  cases node with
  | randomPitch text overrides => cases hrandom
  | randomInteger text overrides low high => cases hrandom
  | sequence text overrides isList values =>
    exact ((h.inOrder values (context.inside overrides) s t hchildren hst).back context).withTree _
  | cycle text values visits => exact h.visit text visits context hchildren hst
  | subdivision text overrides values =>
    exact (((h.inOrder values (context.inside overrides) s t hchildren hst).withResult _).back
      context).withTree _
  | repetition text replayed values count =>
    exact h.repetition keeps hQ hR text replayed context
      (fun node hvalue => hchildren node (List.mem_cons_of_mem _ hvalue))
      (hchildren count (List.mem_cons_self ..)) hst
  | operations text left steps =>
    refine h.operations hQ text context (hchildren left (List.mem_cons_self ..)) ?_ hst
    intro step hstep right hright
    exact hchildren right (List.mem_cons_of_mem _ (List.mem_filterMap.mpr ⟨step, hstep, hright⟩))
  | euclid text pulses length rotate onset offset =>
    refine h.euclid keeps hQ text pulses length rotate context (hchildren onset (List.mem_cons_self ..)) ?_ hst
    intro node hoffset
    exact hchildren node (List.mem_cons_of_mem _ (Option.mem_toList.mpr hoffset))
  | assignment text name eager value =>
    exact h.assignment text name eager context (hchildren value (List.mem_singleton.mpr rfl)) hst
  | «variable» text name =>
    simp only [Realizer.level]
    exact (hstored.use name text context hst).withTree _
  | together text names =>
    simp only [Realizer.level]
    exact ((hstored.layers context names s t hst).withResult _).withTree _
  | _ => exact ⟨rfl, rfl, hst, rfl⟩

/-- **One level keeps realizers in step.**  If the realizers for inner nodes
    agree on what is inside the nodes of `P`, and those for stored values agree
    on everything, the level above agrees on the nodes of `P`. -/
theorem InStep.level {inner inner' stored stored' : Realizer} (hR : Coupled R) (h : InStep R Q inner inner')
    (hstored : InStep R (fun _ => True) stored stored') (keeps : KeepsShape inner) (hQ : Within P Q) :
    InStep R P (level inner stored) (level inner' stored') := by
  intro n node context s t hnode hst
  have hother := InStep.level_of_not_random hR.toTaped h hstored keeps hQ n node context s t
  cases node with
  | randomPitch text overrides =>
    obtain ⟨hdegree, hleft⟩ := hR.index ((overrides.apply context.options).scale.getD (.named Scale.ionian)).size hst
    simp only [Realizer.level, hdegree]
    exact ⟨rfl, rfl, hleft, rfl⟩
  | randomInteger text overrides low high =>
    obtain ⟨hdegree, hleft⟩ := hR.integer low high hst
    simp only [Realizer.level, hdegree]
    exact ⟨rfl, rfl, hleft, rfl⟩
  | _ => exact hother ⟨hnode, rfl⟩ hst

theorem InStep.exhausted : InStep R P exhausted exhausted :=
  fun _ _ _ _ _ _ hst => ⟨rfl, rfl, hst, rfl⟩

theorem InStep.toDepth {stored stored' : Realizer} (hR : Coupled R)
    (hstored : InStep R (fun _ => True) stored stored') (depth : Nat) :
    InStep R (fun _ => True) (toDepth stored depth) (toDepth stored' depth) := by
  induction depth with
  | zero => exact .exhausted
  | succ depth ih => exact .level hR ih hstored (keepsShape_toDepth stored depth) (.all _)

/-- **Sources that cannot be told apart are not told apart by evaluation.** -/
theorem nested_inStep (hR : Coupled R) (limit : Nat) :
    InStep R (fun _ => True) (nested limit) (nested limit) := by
  induction limit with
  | zero => exact .exhausted
  | succ limit ih =>
    intro n node context s t hnode hst
    exact InStep.toDepth hR ih node.depth n node context s t hnode hst

/-! ### Depth is no limit -/

theorem within_depth (limit : Nat) :
    Within (fun node => node.depth ≤ limit + 1) (fun node => node.depth ≤ limit) where
  children := fun hnode child hchild => by
    have := Node.depth_lt_of_mem_children hchild
    omega
  elements := fun hnode element helement => Nat.le_trans (Node.depth_le_of_mem_elements helement) hnode
  event := fun {node} hnode e => by
    have := node.depth_pos
    simp only [Node.depth]
    omega
  visits := fun hnode hvisits => by
    rw [Node.depth_eq_of_unplayed_eq hvisits]
    exact hnode

/-- Depths that both reach to the bottom of a node do the same there. -/
theorem toDepth_inStep (stored : Realizer) (hstored : InStep (fun _ => (· = ·)) (fun _ => True) stored stored)
    (limit : Nat) :
    ∀ {d d' : Nat}, limit ≤ d → limit ≤ d' →
      InStep (fun _ => (· = ·)) (fun node => node.depth ≤ limit) (toDepth stored d) (toDepth stored d') := by
  induction limit with
  | zero =>
    intro d d' _ _ n node context s t hnode _
    have := node.depth_pos
    omega
  | succ limit ih =>
    intro d d' hd hd'
    cases d with
    | zero => omega
    | succ d =>
      cases d' with
      | zero => omega
      | succ d' =>
        exact .level coupled_eq (ih (by omega) (by omega)) hstored (keepsShape_toDepth stored d)
          (within_depth limit)

/-- One level of a node is run with the same realizer for the nodes inside it. -/
theorem nested_eq_level (limit : Nat) (node : Node) (context : Context) (source : Source) :
    nested (limit + 1) node context source = level (nested (limit + 1)) (nested limit) node context source := by
  have hstored := nested_inStep coupled_eq limit
  have hinner : InStep (fun _ => (· = ·)) (fun inside => inside.depth ≤ node.depth - 1)
      (toDepth (nested limit) (node.depth - 1)) (nested (limit + 1)) := by
    intro n inside context s t hinside hst
    exact toDepth_inStep _ hstored inside.depth hinside (Nat.le_refl _) n inside context s t (Nat.le_refl _) hst
  have hlevel := InStep.level coupled_eq hinner hstored (keepsShape_toDepth _ (node.depth - 1))
    (within_depth (node.depth - 1))
  have hdepth : node.depth = node.depth - 1 + 1 := (Nat.succ_pred_eq_of_pos node.depth_pos).symm
  have hunfold : nested (limit + 1) node context source =
      level (toDepth (nested limit) (node.depth - 1)) (nested limit) node context source := by
    show toDepth (nested limit) node.depth node context source = _
    rw [hdepth]
    rfl
  rw [hunfold]
  exact (hlevel 0 node context source source (Nat.le_of_eq hdepth) rfl).eq

end Realizer

/-- **Evaluation, level by level**: one level of a node is run with evaluation
    itself for the nodes inside it. -/
theorem realize_eq_level (node : Node) (context : Context) (source : Source) :
    realize node context source =
      Realizer.level realize (Realizer.nested (nestingLimit - 1)) node context source :=
  Realizer.nested_eq_level (nestingLimit - 1) node context source

theorem nestingLimit_eq_succ : nestingLimit = nestingLimit - 1 + 1 := by decide

theorem nestingLimit_pred_eq_succ : nestingLimit - 1 = nestingLimit - 2 + 1 := by decide

/-! ### Evaluation of some nodes -/

theorem realize_pitch (p : Pitch) (context : Context) (source : Source) :
    realize (.event (.pitch p)) context source =
      ⟨.event (.pitch p), context, source, .ok [.ready (.pitch (p.resolve context.options))]⟩ := by
  rw [realize_eq_level]
  rfl

theorem realize_blank (text : String) (context : Context) (source : Source) :
    realize (.blank text) context source = ⟨.blank text, context, source, .ok []⟩ := by
  rw [realize_eq_level]
  rfl

theorem realize_sequence (text : String) (overrides : Overrides) (isList : Bool) (values : List Node)
    (context : Context) (source : Source) :
    realize (.sequence text overrides isList values) context source =
      ((Realizer.inOrder realize values (context.inside overrides) source).back context).withTree
        (.sequence text overrides isList) := by
  rw [realize_eq_level]
  rfl

/-- A cycle runs the value whose turn it is. -/
theorem realize_cycle {values : List Node} {visits place : Nat} {value : Node}
    (hplace : visits % values.length = place) (hvalue : values[place]? = some value) (text : String)
    (context : Context) (source : Source) :
    realize (.cycle text values visits) context source =
      (realize value context source).withTree fun value =>
        .cycle text (values.set place value) (visits + 1) := by
  rw [realize_eq_level]
  show Realizer.visit realize text values visits context source = _
  simp only [Realizer.visit, hplace, hvalue]

end NumberedMelody
