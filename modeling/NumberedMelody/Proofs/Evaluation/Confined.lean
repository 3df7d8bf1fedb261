/-
  NumberedMelody/Proofs/Evaluation/Confined.lean
  ==============================================
  **Where evaluation stays and how it fails.**  A domain says in which contexts
  nodes are run, and in which ways a run of them may fail.  Two realizers that
  agree on the nodes and the stored values that are met in a domain, and stay in
  it, agree on the nodes around them (`Follows.level`).  With one realizer for
  both, what is left to say is that the runs stay in the domain.

  Which nodes are met is a matter of the contexts, since a variable runs what is
  stored under its name.  A rule that stores a node, looks a name up or plays a
  numeral is therefore asked about by itself (`Domain.Admits`).
-/
import NumberedMelody.Proofs.Evaluation.Blame
import NumberedMelody.Proofs.Evaluation.Lockstep
import NumberedMelody.Proofs.Tree.Likeness

namespace NumberedMelody

open NumberedMelody.Random (Source)

/-- The contexts that nodes are run in, and the ways in which their runs may fail. -/
structure Domain where
  context : Context → Prop := fun _ => True
  failure : Failure → Prop := fun _ => True

namespace Domain

/-- What rules do that have nothing to do with numerals and names stays in the domain. -/
structure Lawful (D : Domain) : Prop where
  inside : ∀ {context}, D.context context → ∀ overrides, D.context (context.inside overrides)
  after : ∀ {context}, D.context context → ∀ change, D.context (context.after change)
  nextMeasure : ∀ {context}, D.context context → D.context context.nextMeasure
  played : ∀ {context}, D.context context → ∀ name text (events : List Event),
    D.context (context.assign name (.sequence text {} true (events.map .event)))
  ordinary : ∀ {failure}, Failure.Ordinary failure → D.failure failure

/-- A node of `P` stores nodes, plays numerals and looks names up within the
    domain, and what it finds under a name is in `S`. -/
structure Admits (D : Domain) (P S : Node → Prop) : Prop where
  assign : ∀ {text name value context}, P (.assignment text name false value) → D.context context →
    D.context (context.assign name value)
  numeral : ∀ {k context}, P (.numeral k) → D.context context → Blames D.failure (k.numeral.chord context.options)
  found : ∀ {node name context value}, P node → name ∈ node.used → D.context context →
    context.stored.lookup name = some value → S value
  unknown : ∀ {node name context}, P node → name ∈ node.used → D.context context →
    context.stored.lookup name = none → context.options.bindings.lookup name = none →
    D.failure (.unknownVariable name)

theorem Admits.imp {D : Domain} {P P' S : Node → Prop} (h : D.Admits P S) (hP : ∀ node, P' node → P node) :
    D.Admits P' S where
  assign := fun hnode => h.assign (hP _ hnode)
  numeral := fun hnode => h.numeral (hP _ hnode)
  found := fun hnode => h.found (hP _ hnode)
  unknown := fun hnode => h.unknown (hP _ hnode)

end Domain

/-! ### Runs -/

/-- The two runs are one, and it stays in the domain. -/
structure Run.Follows {σ ρ : Type} (D : Domain) (x y : Run σ ρ) : Prop where
  eq : x = y
  context : D.context y.context
  blames : Blames D.failure y.result

namespace Run.Follows

variable {σ σ' ρ ρ' : Type} {D : Domain} {x y : Run σ ρ}

theorem yielded {tree : σ} {context : Context} {source : Source} {value : ρ} (hcontext : D.context context) :
    Run.Follows D ⟨tree, context, source, .ok value⟩ ⟨tree, context, source, .ok value⟩ :=
  ⟨rfl, hcontext, .ok value⟩

theorem failed {tree : σ} {context : Context} {source : Source} {failure : Failure} (hcontext : D.context context)
    (hfailure : D.failure failure) :
    Run.Follows D (⟨tree, context, source, .error failure⟩ : Run σ ρ) ⟨tree, context, source, .error failure⟩ :=
  ⟨rfl, hcontext, .error hfailure⟩

theorem withTree (h : x.Follows D y) (f : σ → σ') : (x.withTree f).Follows D (y.withTree f) where
  eq := by rw [h.eq]
  context := h.context
  blames := h.blames

theorem withResult (h : x.Follows D y) {f : ρ → Except Failure ρ'} (hf : ∀ value, Blames D.failure (f value)) :
    (x.withResult f).Follows D (y.withResult f) where
  eq := by rw [h.eq]
  context := h.context
  blames := h.blames.bind hf

theorem back (h : x.Follows D y) {context : Context} (hcontext : D.context context) :
    (x.back context).Follows D (y.back context) where
  eq := by rw [h.eq]
  context := hcontext
  blames := h.blames

theorem andThen (h : x.Follows D y) (untouched : σ') {next next' : ρ → Context → Source → Run σ' ρ'}
    (hnext : ∀ value context source, D.context context →
      (next value context source).Follows D (next' value context source)) :
    (x.andThen untouched next).Follows D (y.andThen untouched next') := by
  obtain rfl := h.eq
  unfold Run.andThen
  cases hresult : x.result with
  | error failure => exact ⟨rfl, h.context, .error (h.blames failure hresult)⟩
  | ok value => exact (hnext value x.context x.source h.context).withTree _

theorem onward (h : x.Follows D y) {next next' : Run σ ρ → ρ → Run σ ρ}
    (hnext : ∀ value, (next y value).Follows D (next' y value)) : (x.onward next).Follows D (y.onward next') := by
  obtain rfl := h.eq
  unfold Run.onward
  cases x.result with
  | error failure => exact h
  | ok value => exact hnext value

/-- Steps in front of those that a run yields. -/
theorem behind {x y : Run σ (List Step)} (h : x.Follows D y) (steps : List Step) :
    (x.withResult fun others => .ok (steps ++ others)).Follows D (y.withResult fun others => .ok (steps ++ others)) :=
  h.withResult fun _ => .ok _

end Run.Follows

namespace Realizer

/-- The two realizers agree on the nodes of `P` in the contexts of the domain, and stay in it. -/
def Follows (D : Domain) (P : Node → Prop) (r r' : Realizer) : Prop :=
  ∀ node context source, P node → D.context context → (r node context source).Follows D (r' node context source)

variable {D : Domain} {P Q S : Node → Prop} {r r' : Realizer}

/-! ### Nodes in order -/

theorem Follows.inOrder (h : Follows D Q r r') (nodes : List Node) :
    ∀ (context : Context) (source : Source), (∀ node ∈ nodes, Q node) → D.context context →
      (inOrder r nodes context source).Follows D (inOrder r' nodes context source) := by
  induction nodes with
  | nil =>
    intro context source _ hcontext
    exact .yielded hcontext
  | cons node more ih =>
    intro context source hnodes hcontext
    refine ((h node context source (hnodes node (List.mem_cons_self ..)) hcontext).andThen more ?_).withTree _
    intro steps context source hcontext
    exact (ih context source (fun node hnode => hnodes node (List.mem_cons_of_mem _ hnode)) hcontext).behind steps

section

variable {context : Context} (source : Source)

theorem Follows.events (h : Follows D Q r r') (hD : D.Lawful) {node : Node} (hnode : Q node)
    (hcontext : D.context context) : (events r node context source).Follows D (events r' node context source) :=
  ((h node context source hnode hcontext).withResult fun steps =>
    (assignDurations_blames steps).imp fun _ => hD.ordinary).back hcontext

theorem Follows.eventsInOrder (h : Follows D Q r r') (hD : D.Lawful) {nodes : List Node}
    (hnodes : ∀ node ∈ nodes, Q node) (hcontext : D.context context) :
    (eventsInOrder r nodes context source).Follows D (eventsInOrder r' nodes context source) :=
  ((h.inOrder nodes context source hnodes hcontext).withResult fun steps =>
    (assignDurations_blames steps).imp fun _ => hD.ordinary).back hcontext

/-! ### Numbers and repeats -/

theorem Follows.number (h : Follows D Q r r') (hD : D.Lawful) {node : Node} (hnode : Q node)
    (hcontext : D.context context) : (number r node context source).Follows D (number r' node context source) := by
  cases node with
  | integer text value => exact .yielded hcontext
  | _ =>
    refine ((h _ context source hnode hcontext).withResult ?_).back hcontext
    intro steps
    split
    · exact .ok _
    · exact .error (hD.ordinary (.noNumber _))

end

theorem Follows.passes (h : Follows D Q r r') (keeps : KeepsShape r') (hQ : Within P Q) (prepare : Source → Source)
    {context : Context} (hcontext : D.context context) (times : Nat) :
    ∀ (nodes : List Node) (source : Source), (∀ node ∈ nodes, Q node) →
      (passes r prepare context times nodes source).Follows D (passes r' prepare context times nodes source) := by
  induction times with
  | zero =>
    intro nodes source _
    exact .yielded hcontext
  | succ times ih =>
    intro nodes source hnodes
    have hpass := (h.inOrder nodes context (prepare source) hnodes hcontext).back hcontext
    have hvisits := keeps.inOrder nodes context (prepare source)
    rw [passes_succ, passes_succ]
    refine hpass.onward fun steps => ?_
    exact (ih _ _ (hQ.visitsAll hnodes hvisits)).behind steps

section

variable {context : Context} (source : Source)

theorem Follows.repeated (h : Follows D Q r r') (keeps : KeepsShape r') (hQ : Within P Q) (prepare : Source → Source)
    (times : Nat) {nodes : List Node} (hnodes : ∀ node ∈ nodes, Q node) (hcontext : D.context context) :
    (repeated r prepare times nodes context source).Follows D (repeated r' prepare times nodes context source) := by
  cases times with
  | zero => exact .yielded hcontext
  | succ times =>
    have hpass := h.passes keeps hQ id hcontext 1 nodes source hnodes
    have hvisits := keeps.passes id context 1 nodes source
    rw [repeated_succ, repeated_succ]
    refine hpass.onward fun steps => ?_
    exact (h.passes keeps hQ prepare hcontext times _ _ (hQ.visitsAll hnodes hvisits)).behind steps

theorem Follows.repetition (h : Follows D Q r r') (keeps : KeepsShape r') (hQ : Within P Q) (hD : D.Lawful)
    (text : String) (replayed : Bool) {values : List Node} {count : Node} (hvalues : ∀ node ∈ values, Q node)
    (hcount : Q count) (hcontext : D.context context) :
    (repetition r text replayed values count context source).Follows D
      (repetition r' text replayed values count context source) := by
  unfold Realizer.repetition
  refine ((h.number source hD hcount hcontext).andThen values ?_).withTree _
  intro times context source hcontext
  by_cases htimes : times ≤ 0
  · simp only [if_pos htimes]
    exact .yielded hcontext
  · simp only [if_neg htimes]
    cases replayed with
    | false => exact h.repeated source keeps hQ id times.toNat hvalues hcontext
    | true =>
      have hrun := h.repeated source.record keeps hQ Source.rewind times.toNat hvalues hcontext
      simp only [if_true]
      rw [hrun.eq]
      exact ⟨rfl, hrun.context, hrun.blames⟩

/-! ### List operations -/

theorem Follows.zipped (h : Follows D Q r r') (hQ : Within P Q) (hD : D.Lawful) {left : List Node}
    {right : Option Node} (hleft : ∀ node ∈ left, Q node) (hright : ∀ node ∈ right, Q node)
    (hcontext : D.context context) :
    (zipped r left right context source).Follows D (zipped r' left right context source) := by
  unfold Realizer.zipped
  refine (h.eventsInOrder source hD ?_ hcontext).withTree _
  intro node hnode
  rcases mem_or_mem_of_mem_interleave hnode with hmem | hmem
  · exact hleft node hmem
  · cases right with
    | none => simp at hmem
    | some right => exact hQ.elements (hright right rfl) node hmem

theorem Follows.operand (h : Follows D Q r r') (hD : D.Lawful) {right : Option Node}
    (hright : ∀ node ∈ right, Q node) (hcontext : D.context context) :
    (operand r right context source).Follows D (operand r' right context source) := by
  cases right with
  | none => exact .yielded hcontext
  | some node => exact (h.events source hD (hright node rfl) hcontext).withTree _

theorem Follows.operation (h : Follows D Q r r') (hQ : Within P Q) (hD : D.Lawful) (left : List Event)
    {step : Operation Node} (hevent : ∀ e, Q (.event e)) (hstep : ∀ node ∈ step.right?, Q node)
    (hcontext : D.context context) :
    (operation r left step context source).Follows D (operation r' left step context source) := by
  cases step with
  | map expr =>
    refine ⟨rfl, hcontext, ?_⟩
    exact (ListArithmetic.mapEvents_blames expr context.options left).imp fun _ => hD.ordinary
  | binary op right =>
    have hright : ∀ node ∈ right, Q node := hstep
    have hoperand := h.operand source hD hright hcontext
    cases op with
    | zip =>
      simp only [Realizer.operation]
      refine (h.zipped source hQ hD ?_ hright hcontext).withTree _
      intro node hnode
      obtain ⟨e, -, rfl⟩ := List.mem_map.mp hnode
      exact hevent e
    | vertical => exact (hoperand.withTree _).withResult fun _ => .ok _
    | horizontal => exact (hoperand.withTree _).withResult fun _ => .ok _
    | arithmetic op =>
      refine (hoperand.withTree _).withResult fun rights => ?_
      exact (ListArithmetic.combine_blames op context.options left rights).imp fun _ => hD.ordinary

end

theorem Follows.operationsOn (h : Follows D Q r r') (hQ : Within P Q) (hD : D.Lawful) (hevent : ∀ e, Q (.event e))
    (steps : List (Operation Node)) :
    ∀ (left : List Event) (context : Context) (source : Source),
      (∀ step ∈ steps, ∀ node ∈ step.right?, Q node) → D.context context →
      (operationsOn r left steps context source).Follows D (operationsOn r' left steps context source) := by
  induction steps with
  | nil =>
    intro left context source _ hcontext
    exact .yielded hcontext
  | cons step more ih =>
    intro left context source hsteps hcontext
    have hstep := h.operation source hQ hD left hevent (hsteps step (List.mem_cons_self ..)) hcontext
    refine (hstep.andThen more ?_).withTree _
    intro events context source hcontext
    exact ih events context source (fun step hstep => hsteps step (List.mem_cons_of_mem _ hstep)) hcontext

section

variable {context : Context} (source : Source)

theorem Follows.operations (h : Follows D Q r r') (hQ : Within P Q) (hD : D.Lawful) (text : String) {left : Node}
    {steps : List (Operation Node)} (hleft : Q left) (hsteps : ∀ step ∈ steps, ∀ node ∈ step.right?, Q node)
    (hcontext : D.context context) :
    (operations r text left steps context source).Follows D (operations r' text left steps context source) := by
  have hrest : ∀ (rest : List (Operation Node)), (∀ step ∈ rest, step ∈ steps) →
      ∀ events context source, D.context context →
        (Realizer.operationsOn r events rest context source).Follows D
          (Realizer.operationsOn r' events rest context source) := by
    intro rest hrest events context source hcontext
    exact h.operationsOn hQ hD (hQ.event hleft) rest events context source
      (fun step hstep => hsteps step (hrest step hstep)) hcontext
  unfold Realizer.operations
  refine Run.Follows.withResult ?_ fun _ => .ok _
  split
  · next right more =>
    have hzip := h.zipped source hQ hD (hQ.elements hleft) (hsteps _ (List.mem_cons_self ..)) hcontext
    exact (hzip.andThen more (hrest more fun step hstep => List.mem_cons_of_mem _ hstep)).withTree _
  · exact ((h.events source hD hleft hcontext).andThen steps (hrest steps fun step hstep => hstep)).withTree _

/-! ### Lists dealt out -/

/-- A deck of nodes of `Q`, in a context of the domain. -/
structure Deck.Stays (D : Domain) (Q : Node → Prop) (deck : Deck) : Prop where
  elements : ∀ node ∈ deck.elements, Q node
  context : D.context deck.context

theorem Follows.deal (h : Follows D Q r r') (keeps : KeepsShape r') (hQ : Within P Q) {deck : Deck}
    (hdeck : deck.Stays D Q) :
    (deck.deal r source).Follows D (deck.deal r' source) ∧ (deck.deal r' source).tree.Stays D Q := by
  have helements := hQ.visitsAll hdeck.elements (keeps.deal deck source)
  unfold Deck.deal at helements ⊢
  cases hplace : deck.elements[deck.dealt % deck.elements.length]? with
  | none =>
    simp only [hplace]
    exact ⟨.yielded hdeck.context, hdeck⟩
  | some element =>
    have hrun := h element deck.context source (hdeck.elements element (List.mem_of_getElem? hplace)) hdeck.context
    simp only [hplace, hrun.eq] at helements ⊢
    exact ⟨⟨rfl, hrun.context, hrun.blames⟩, helements, hrun.context⟩

theorem Follows.beat (h : Follows D Q r r') (keeps : KeepsShape r') (hQ : Within P Q) (silence : Step)
    (hit : Bool) {on off : Deck} (hon : on.Stays D Q) (hoff : off.Stays D Q) :
    (beat r silence hit on off source).Follows D (beat r' silence hit on off source) ∧
      (beat r' silence hit on off source).tree.1.Stays D Q ∧
      (beat r' silence hit on off source).tree.2.Stays D Q := by
  unfold Realizer.beat
  cases hit with
  | true =>
    obtain ⟨hrun, hdeck⟩ := h.deal source keeps hQ hon
    simp only [if_true]
    exact ⟨hrun.withTree _, hdeck, hoff⟩
  | false =>
    simp only [Bool.false_eq_true, if_false]
    by_cases hempty : off.elements.isEmpty
    · simp only [if_pos hempty]
      exact ⟨.yielded hon.context, hon, hoff⟩
    · obtain ⟨hrun, hdeck⟩ := h.deal source keeps hQ hoff
      simp only [if_neg hempty]
      exact ⟨hrun.withTree _, hon, hdeck⟩

end

theorem Follows.dealt (h : Follows D Q r r') (keeps : KeepsShape r') (hQ : Within P Q) (silence : Step)
    (rhythm : List Bool) :
    ∀ (on off : Deck) (source : Source), on.Stays D Q → off.Stays D Q →
      (dealt r silence rhythm on off source).Follows D (dealt r' silence rhythm on off source) := by
  induction rhythm with
  | nil =>
    intro on off source hon _
    exact .yielded hon.context
  | cons hit more ih =>
    intro on off source hon hoff
    obtain ⟨hbeat, hon', hoff'⟩ := h.beat source keeps hQ silence hit hon hoff
    rw [dealt_cons, dealt_cons]
    exact hbeat.onward fun steps => (ih _ _ _ hon' hoff').behind steps

section

variable {context : Context} (source : Source)

theorem Follows.euclid (h : Follows D Q r r') (keeps : KeepsShape r') (hQ : Within P Q) (hD : D.Lawful)
    (text : String) (pulses length : Nat) (rotate : Int) {onset : Node} {offset : Option Node} (honset : Q onset)
    (hoffset : ∀ node ∈ offset, Q node) (hcontext : D.context context) :
    (euclid r text pulses length rotate onset offset context source).Follows D
      (euclid r' text pulses length rotate onset offset context source) := by
  have hdeck : ∀ node, Q node → (Deck.ofList node context).Stays D Q := by
    intro node hnode
    exact ⟨hQ.elements hnode, hD.inside hcontext node.listOverrides⟩
  unfold Realizer.euclid
  by_cases hempty : onset.elements.isEmpty
  · simp only [if_pos hempty]
    exact .failed hcontext (hD.ordinary (.noOnset text))
  · simp only [if_neg hempty]
    have hoff : ((offset.map (Deck.ofList · context)).getD ⟨[], 0, context⟩).Stays D Q := by
      cases offset with
      | none => exact ⟨fun node hnode => (by cases hnode), hcontext⟩
      | some offset => exact hdeck offset (hoffset offset rfl)
    exact ((h.dealt keeps hQ _ _ _ _ source (hdeck onset honset) hoff).back hcontext).withTree _

/-! ### Variables -/

theorem Follows.use (hstored : Follows D S r r') {name : String} (text : String)
    (hfound : ∀ value, context.stored.lookup name = some value → S value)
    (hunknown : context.stored.lookup name = none → context.options.bindings.lookup name = none →
      D.failure (.unknownVariable name))
    (hcontext : D.context context) :
    (use r name text context source).Follows D (use r' name text context source) := by
  unfold Realizer.use
  cases hlookup : context.stored.lookup name with
  | some value => exact (hstored value context source (hfound value hlookup) hcontext).withTree _
  | none =>
    refine ⟨rfl, hcontext, ?_⟩
    dsimp only
    cases hbound : context.options.bindings.lookup name with
    | none => exact .error (hunknown hlookup hbound)
    | some binding => cases binding <;> exact .ok _

end

theorem Follows.layers (hstored : Follows D S r r') (hD : D.Lawful) {context : Context}
    (hcontext : D.context context) (names : List String) :
    ∀ source : Source,
      (∀ name ∈ names, ∀ value, context.stored.lookup name = some value → S value) →
      (∀ name ∈ names, context.stored.lookup name = none → context.options.bindings.lookup name = none →
        D.failure (.unknownVariable name)) →
      (layers r context names source).Follows D (layers r' context names source) := by
  induction names with
  | nil =>
    intro source _ _
    exact .yielded hcontext
  | cons name more ih =>
    intro source hfound hunknown
    have hname := List.mem_cons_self (a := name) (l := more)
    have hrun := ((hstored.use source name (hfound name hname) (hunknown name hname) hcontext).withResult
      fun steps => (assignDurations_blames steps).imp fun _ => hD.ordinary).back hcontext
    have hmore := fun source => ih source (fun other hother => hfound other (List.mem_cons_of_mem _ hother))
      fun other hother => hunknown other (List.mem_cons_of_mem _ hother)
    unfold Realizer.layers
    simp only [hrun.eq]
    cases hresult : (((Realizer.use r' name name context source).withResult assignDurations).back context).result with
    | error failure => exact .failed hcontext (hrun.blames failure hresult)
    | ok layer => exact (hmore _).withResult fun _ => .ok _

section

variable {context : Context} (source : Source)

/-! ### One level -/

theorem Follows.visit (h : Follows D Q r r') (text : String) {values : List Node} (visits : Nat)
    (hvalues : ∀ node ∈ values, Q node) (hcontext : D.context context) :
    (visit r text values visits context source).Follows D (visit r' text values visits context source) := by
  unfold Realizer.visit
  cases hplace : values[visits % values.length]? with
  | none =>
    simp only [hplace]
    exact .yielded hcontext
  | some value =>
    simp only [hplace]
    exact (h value context source (hvalues value (List.mem_of_getElem? hplace)) hcontext).withTree _

theorem Follows.assignment (h : Follows D Q r r') (hD : D.Lawful) (text name : String) (eager : Bool) {value : Node}
    (hvalue : Q value) (hassign : eager = false → D.context (context.assign name value))
    (hcontext : D.context context) :
    (assignment r text name eager value context source).Follows D
      (assignment r' text name eager value context source) := by
  unfold Realizer.assignment
  cases eager with
  | false => exact .yielded (hassign rfl)
  | true =>
    have hrun := h.events source hD hvalue hcontext
    simp only [if_true, hrun.eq]
    cases hresult : (Realizer.events r' value context source).result with
    | error failure => exact .failed hcontext (hrun.blames failure hresult)
    | ok played => exact .yielded (hD.played hcontext name value.text played)

end

/-- **One level stays where the levels below it stay.** -/
theorem Follows.level {inner inner' stored stored' : Realizer} (hD : D.Lawful) (hP : D.Admits P S)
    (h : Follows D Q inner inner') (hstored : Follows D S stored stored') (keeps : KeepsShape inner')
    (hQ : Within P Q) : Follows D P (level inner stored) (level inner' stored') := by
  intro node context source hnode hcontext
  have hchildren := hQ.children hnode
  cases node with
  | bar text => exact .yielded (hD.nextMeasure hcontext)
  | change text change => exact .yielded (hD.after hcontext change)
  | numeral k =>
    have hplay : Blames D.failure (k.play context).1 := fun failure hfailure =>
      hP.numeral hnode hcontext failure (KeptNumeral.chord_of_play_eq_error hfailure)
    exact ⟨rfl, hcontext, hplay.map _⟩
  | expression text overrides expr =>
    exact ⟨rfl, hcontext, ((expr.eval_blames none).imp fun _ => hD.ordinary).map _⟩
  | sequence text overrides isList values =>
    exact ((h.inOrder values _ source hchildren (hD.inside hcontext overrides)).back hcontext).withTree _
  | cycle text values visits => exact h.visit source text visits hchildren hcontext
  | subdivision text overrides values =>
    exact (((h.inOrder values _ source hchildren (hD.inside hcontext overrides)).withResult
      fun _ => .ok _).back hcontext).withTree _
  | repetition text replayed values count =>
    exact h.repetition source keeps hQ hD text replayed
      (fun node hvalue => hchildren node (List.mem_cons_of_mem _ hvalue)) (hchildren count (List.mem_cons_self ..))
      hcontext
  | operations text left steps =>
    refine h.operations source hQ hD text (hchildren left (List.mem_cons_self ..)) ?_ hcontext
    intro step hstep right hright
    exact hchildren right (List.mem_cons_of_mem _ (List.mem_filterMap.mpr ⟨step, hstep, hright⟩))
  | euclid text pulses length rotate onset offset =>
    refine h.euclid source keeps hQ hD text pulses length rotate (hchildren onset (List.mem_cons_self ..)) ?_ hcontext
    intro node hoffset
    exact hchildren node (List.mem_cons_of_mem _ (Option.mem_toList.mpr hoffset))
  | assignment text name eager value =>
    refine h.assignment source hD text name eager (hchildren value (List.mem_singleton.mpr rfl)) ?_ hcontext
    rintro rfl
    exact hP.assign hnode hcontext
  | «variable» text name =>
    simp only [Realizer.level]
    have hname : name ∈ (Node.variable text name).used := List.mem_singleton.mpr rfl
    exact (hstored.use source text (fun _ => hP.found hnode hname hcontext) (hP.unknown hnode hname hcontext)
      hcontext).withTree _
  | together text names =>
    simp only [Realizer.level]
    exact ((hstored.layers hD hcontext names source (fun _ hname _ => hP.found hnode hname hcontext)
      fun _ hname => hP.unknown hnode hname hcontext).withResult fun _ => .ok _).withTree _
  | _ => exact .yielded hcontext

/-! ### Whole trees -/

theorem within_everywhere {P : Node → Prop}
    (hvisits : ∀ {node other : Node}, P node → other.unplayed = node.unplayed → P other)
    (hevent : ∀ e, P (.event e)) : Within (Node.Everywhere P) (Node.Everywhere P) where
  children := fun hnode => hnode.inside
  elements := fun hnode => hnode.elements
  event := fun _ e => .intro (hevent e) fun child hchild => by cases hchild
  visits := fun hnode => hnode.of_unplayed_eq hvisits

/-- The nodes of `P` up to a depth. -/
def upTo (P : Node → Prop) (depth : Nat) (node : Node) : Prop := P node ∧ node.depth ≤ depth

theorem within_upTo (hP : Within P P) (depth : Nat) : Within (upTo P (depth + 1)) (upTo P depth) where
  children := fun hnode child hchild =>
    ⟨hP.children hnode.1 child hchild, (within_depth depth).children hnode.2 child hchild⟩
  elements := fun hnode element helement =>
    ⟨hP.elements hnode.1 element helement, (within_depth depth).elements hnode.2 element helement⟩
  event := fun hnode e => ⟨hP.event hnode.1 e, (within_depth depth).event hnode.2 e⟩
  visits := fun hnode hvisits => ⟨hP.visits hnode.1 hvisits, (within_depth depth).visits hnode.2 hvisits⟩

theorem Follows.toDepth {stored stored' : Realizer} (hD : D.Lawful) (hadmits : D.Admits P S)
    (hP : Within P P) (hstored : Follows D S stored stored') (depth : Nat) :
    Follows D (upTo P depth) (toDepth stored depth) (toDepth stored' depth) := by
  induction depth with
  | zero =>
    intro node context source hnode _
    have := node.depth_pos
    have := hnode.2
    omega
  | succ depth ih =>
    exact .level hD (hadmits.imp fun _ hnode => hnode.1) ih hstored (keepsShape_toDepth stored' depth)
      (within_upTo hP depth)

/-- **Variables, one deep.**  What is stored is run alike up to one limit or
    another; so is everything that stores it, one limit further up. -/
theorem Follows.nested {limit limit' : Nat} (hD : D.Lawful) (hadmits : D.Admits P S) (hP : Within P P)
    (hstored : Follows D S (nested limit) (nested limit')) :
    Follows D P (nested (limit + 1)) (nested (limit' + 1)) := by
  intro node context source hnode hcontext
  exact hstored.toDepth hD hadmits hP node.depth node context source ⟨hnode, Nat.le_refl _⟩ hcontext

end Realizer

end NumberedMelody
