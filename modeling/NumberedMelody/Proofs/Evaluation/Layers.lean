/-
  NumberedMelody/Proofs/Evaluation/Layers.lean
  ============================================
  **Invariants reach into layers.**  Layers are laid together from events that
  were yielded before, are only ever stretched as a whole, and take no part in
  operations between lists.  So what evaluation maintains of the events that it
  yields, it maintains of the events in their layers too, at any depth
  (`Invariant.Kept.deep`), as long as no node of the tree holds other layers to
  begin with.
-/
import NumberedMelody.Proofs.Evaluation.Derived
import NumberedMelody.Proofs.Evaluation.Maintenance
import NumberedMelody.Proofs.Grammar.Written

namespace NumberedMelody

namespace Event

/-! ### Events in layers -/

def layers : Event → List (List Event)
  | .polyphony _ layers => layers
  | _ => []

/-- Something holds of an event and of every event in its layers, at any depth. -/
inductive Throughout (P : Event → Prop) : Event → Prop where
  | intro {e : Event} (here : P e) (inside : ∀ layer ∈ e.layers, ∀ other ∈ layer, Throughout P other) :
    Throughout P e

/-- Something holds of every event in the layers of an event, at any depth. -/
def Inside (P : Event → Prop) (e : Event) : Prop := ∀ layer ∈ e.layers, ∀ other ∈ layer, Throughout P other

variable {P Q : Event → Prop} {e : Event}

theorem Throughout.here : Throughout P e → P e
  | .intro here _ => here

theorem Throughout.inside : Throughout P e → e.Inside P
  | .intro _ inside => inside

theorem inside_of_flat (h : e.layers = []) : e.Inside P := by
  intro layer hlayer
  rw [h] at hlayer
  cases hlayer

theorem throughout_of_flat (here : P e) (h : e.layers = []) : e.Throughout P := .intro here (inside_of_flat h)

theorem Throughout.imp (h : ∀ e, P e → Q e) {e : Event} (he : e.Throughout P) : e.Throughout Q := by
  induction he with
  | intro here _ ih => exact .intro (h _ here) ih

theorem Throughout.and {e : Event} (hP : e.Throughout P) (hQ : e.Throughout Q) : e.Throughout fun e => P e ∧ Q e := by
  induction hP with
  | intro here _ ih =>
    refine .intro ⟨here, hQ.here⟩ ?_
    intro layer hlayer other hother
    exact ih layer hlayer other hother (hQ.inside layer hlayer other hother)

/-! ### Stretching -/

mutual

theorem Throughout.setDuration (hset : ∀ {e : Event} {d : Float}, P e → P (e.setDuration d)) (d : Float) :
    ∀ e : Event, e.Throughout P → (e.setDuration d).Throughout P
  | .pitch _, h => throughout_of_flat (hset h.here) rfl
  | .chord _, h => throughout_of_flat (hset h.here) rfl
  | .rest _, h => throughout_of_flat (hset h.here) rfl
  | .sample _, h => throughout_of_flat (hset h.here) rfl
  | .function _, h => throughout_of_flat (hset h.here) rfl
  | .polyphony text layers, h => by
    have here := hset (d := d) h.here
    rw [Event.setDuration] at here ⊢
    -- layers that last no time are left alone
    by_cases hnone : Quantity.isAtMost (longest layers) Quantity.zero = true
    · rw [if_pos hnone]
      exact h
    · rw [if_neg hnone] at here ⊢
      exact .intro here (throughout_stretchLayers hset (d / longest layers) layers h.inside)

theorem throughout_stretchLayer (hset : ∀ {e : Event} {d : Float}, P e → P (e.setDuration d)) (factor : Float) :
    ∀ layer : List Event, (∀ e ∈ layer, e.Throughout P) → ∀ e ∈ stretchLayer factor layer, e.Throughout P
  | [], _ => by
    intro e he
    cases he
  | first :: more, h => by
    have hfirst := h first (List.mem_cons_self ..)
    have hmore := throughout_stretchLayer hset factor more fun e he => h e (List.mem_cons_of_mem _ he)
    intro e he
    rw [stretchLayer] at he
    cases hd : first.duration with
    | none =>
      rw [hd] at he
      rcases List.mem_cons.mp he with rfl | he
      · exact hfirst
      · exact hmore e he
    | some d =>
      rw [hd] at he
      rcases List.mem_cons.mp he with rfl | he
      · exact Throughout.setDuration hset (d * factor) first hfirst
      · exact hmore e he

theorem throughout_stretchLayers (hset : ∀ {e : Event} {d : Float}, P e → P (e.setDuration d)) (factor : Float) :
    ∀ layers : List (List Event), (∀ layer ∈ layers, ∀ e ∈ layer, e.Throughout P) →
      ∀ layer ∈ stretchLayers factor layers, ∀ e ∈ layer, e.Throughout P
  | [], _ => by
    intro layer hlayer
    cases hlayer
  | first :: more, h => by
    intro layer hlayer
    rcases List.mem_cons.mp hlayer with rfl | hlayer
    · exact throughout_stretchLayer hset factor first (h first (List.mem_cons_self ..))
    · exact throughout_stretchLayers hset factor more (fun layer hlayer => h layer (List.mem_cons_of_mem _ hlayer)) layer
        hlayer

end

/-! ### Events without layers -/

@[simp] theorem layers_against (e : Event) (o : Options) : (e.against o).layers = e.layers := by
  cases e <;> rfl

theorem Written.layers_eq_nil (h : e.Written) : e.layers = [] := by
  cases e with
  | polyphony text layers => exact h.elim
  | _ => rfl

end Event

open NumberedMelody.Random (Source)
open Event (Throughout)
open Node (unplayedAll)

/-! ### Deep invariants -/

namespace Invariant

variable {I : Invariant}

/-- The invariant, of the events in layers as well. -/
def deep (I : Invariant) : Invariant where
  node node := I.node node ∧ ∀ e, node = .event e → e.Inside I.event
  operator := I.operator
  options := I.options
  source := I.source
  event := Throughout I.event

theorem eq_event_of_unplayed_eq {node other : Node} {e : Event} (h : other.unplayed = node.unplayed)
    (hother : other = .event e) : node = .event e := by
  subst hother
  cases node <;> simp_all [Node.unplayed]

theorem Kept.deepNodes (hI : I.Kept) : I.deep.KeptByNodes where
  shape := by
    intro node other hnode hshape
    refine ⟨hI.shape hnode.1 hshape, ?_⟩
    intro e hother
    exact hnode.2 e (eq_event_of_unplayed_eq hshape hother)
  operators := fun hnode hstep => hI.operators hnode.1 hstep
  played := by
    intro e he
    refine ⟨hI.played he.here, ?_⟩
    intro e' heq
    obtain rfl := Node.event.inj heq
    exact he.inside
  list := fun text values => ⟨hI.list text values, fun e heq => by cases heq⟩

theorem Kept.deepEvents (hI : I.Kept) : I.deep.KeptByEvents where
  against := by
    intro e o hnode ho
    refine .intro (hI.against hnode.1 ho) ?_
    rw [Event.layers_against]
    exact hnode.2 e rfl
  numeral := fun hnode hc => Event.throughout_of_flat (hI.numeral hnode.1 hc) rfl
  generated := fun hnode ho hdegree overrides =>
    Event.throughout_of_flat (hI.generated hnode.1 ho hdegree overrides) rfl
  silence := fun text duration => Event.throughout_of_flat (hI.silence text duration) rfl
  sample := fun text name duration => Event.throughout_of_flat (hI.sample text name duration) rfl
  function := fun text run duration => Event.throughout_of_flat (hI.function text run duration) rfl
  together := by
    intro layers text hlayers
    refine .intro (hI.together text ?_) hlayers
    intro layer hlayer e he
    exact (hlayers layer hlayer e he).here
  setDuration := fun he => Throughout.setDuration hI.setDuration _ _ he
  combined := by
    intro o op l r e ho hop hlpitched hrpitched hl hr h
    have here := hI.combined ho hop hlpitched hrpitched hl.here hr.here h
    rcases ListArithmetic.combinePair_cases h with ⟨p, -, rfl⟩ | ⟨tones, -, -, rfl⟩
    · exact Event.throughout_of_flat here rfl
    · exact Event.throughout_of_flat here rfl
  mapped := by
    intro o expr e e' ho he h
    have here := hI.mapped ho he.here h
    rcases ListArithmetic.mapEvent_cases h with ⟨p, -, rfl⟩ | ⟨tones, -, -, -, rfl⟩ | rfl
    · exact Event.throughout_of_flat here rfl
    · exact Event.throughout_of_flat here rfl
    · exact he
  vertical := by
    intro l i e hop htones hl hi h
    have here := hI.vertical hop htones hl.here hi.here h
    rcases ListArithmetic.pickVertical_cases h with ⟨index, tone, rfl, -, rfl⟩ | ⟨c, rfl, rfl⟩ | rfl
    · exact Event.throughout_of_flat here rfl
    · exact Event.throughout_of_flat here rfl
    · exact hi
  horizontal := by
    intro pool i e hop hpool hi h
    have here := hI.horizontal hop (fun e he => (hpool e he).here) hi.here h
    rcases ListArithmetic.pickHorizontal_cases h with hmem | ⟨c, rfl, rfl⟩ | rfl
    · exact hpool e hmem
    · exact Event.throughout_of_flat here rfl
    · exact hi

/-- **What evaluation maintains of events, it maintains of the events in their layers.** -/
theorem Kept.deep (hI : I.Kept) : I.deep.Kept where
  toKeptByNodes := hI.deepNodes
  toKeptByOptions := ⟨fun hnode => hI.scope hnode.1, hI.duration, hI.octave⟩
  toKeptBySources := ⟨fun hnode => hI.index hnode.1, fun hnode => hI.integer hnode.1, hI.record, hI.rewind, hI.finish⟩
  toKeptByEvents := hI.deepEvents

theorem Admits.deep {node : Node} (h : I.Admits node) (hwritten : node.AsWritten) : I.deep.Admits node := by
  induction h with
  | intro here _ ih =>
    refine .intro ⟨here, ?_⟩ fun child hchild => ih child hchild (hwritten.inside child hchild)
    rintro e rfl
    exact Event.inside_of_flat (Event.Written.layers_eq_nil hwritten.here)

end Invariant

theorem deep_admits_of_readPattern {I : Invariant} {text : String} {nodes : List Node}
    (hread : readPattern text = .ok nodes) (hnodes : ∀ node ∈ nodes, I.Admits node) :
    ∀ node ∈ nodes, I.deep.Admits node :=
  fun node hnode => (hnodes node hnode).deep (readPattern_written hread node hnode)

/-- What every rule respects holds of the events of every cycle of a pattern, in
    layers as well. -/
theorem evaluate_throughout {I : Invariant} (hI : I.Kept) {nodes tree : List Node}
    (hnodes : ∀ node ∈ nodes, I.deep.Admits node) (hshape : unplayedAll tree = unplayedAll nodes)
    {options : Options} (hoptions : I.options options) {source : Source} (hsource : I.source 0 source)
    {events : List Event} (hevents : (evaluate tree (.ofOptions options) source).result = .ok events) :
    ∀ e ∈ events, e.Throughout I.event := by
  have htree := Invariant.Admits.of_unplayedAll_eq hI.deep hnodes hshape
  have hrun : (evaluate tree (.ofOptions options) source).Obeys I.deep 0 I.deep.Events :=
    evaluate_maintains hI.deep htree (.ofOptions hoptions) hsource
  exact hrun.result events hevents

end NumberedMelody
