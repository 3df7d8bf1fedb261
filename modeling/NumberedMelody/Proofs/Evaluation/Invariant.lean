/-
  NumberedMelody/Proofs/Evaluation/Invariant.lean
  ===============================================
  **What evaluation maintains.**  An invariant asks something of the nodes that
  are run, of the options, of the sources and of the events that are yielded.
  What a single rule of evaluation has to respect is listed once
  (`Invariant.Kept`), for nodes, options, sources and events apart, so that an
  invariant of one of them has little to say about the others.

  Stored values are nodes that were met earlier, or lists of events that were
  yielded earlier, so nothing of their own is asked of them.
-/
import Mathlib.Data.List.Forall2
import NumberedMelody.Proofs.Evaluation.Visits
import NumberedMelody.Proofs.Random.Intervals

namespace NumberedMelody

open NumberedMelody.Random (Source)
open Node (unplayedAll)

/-! ### Results that go on -/

section Results

variable {α β : Type}

theorem bind_eq_ok {x : Except Failure α} {f : α → Except Failure β} {b : β} :
    x.bind f = .ok b ↔ ∃ a, x = .ok a ∧ f a = .ok b := by
  cases x with
  | error failure => simp [Except.bind]
  | ok a => simp [Except.bind]

theorem bind_eq_error {x : Except Failure α} {f : α → Except Failure β} {failure : Failure} :
    x.bind f = .error failure ↔ x = .error failure ∨ ∃ a, x = .ok a ∧ f a = .error failure := by
  cases x <;> simp [Except.bind]

theorem map_eq_ok {x : Except Failure α} {f : α → β} {b : β} : x.map f = .ok b ↔ ∃ a, x = .ok a ∧ f a = b := by
  cases x with
  | error failure => simp [Except.map]
  | ok a => simp [Except.map]

theorem eq_ok_of_any {x : Except Failure α} {check : α → Bool} (h : x.toOption.any check = true) :
    ∃ a, x = .ok a ∧ check a = true := by
  cases x with
  | error failure => simp [Except.toOption] at h
  | ok a => exact ⟨a, rfl, h⟩

/-- The failure is this one. -/
def failsOf (expected : Failure) : Except Failure α → Bool
  | .error failure => failure = expected
  | .ok _ => false

theorem eq_error_of_failsOf {expected : Failure} {x : Except Failure α} (h : failsOf expected x = true) :
    x = .error expected := by
  cases x with
  | error failure => rw [of_decide_eq_true h]
  | ok a => cases h

theorem forall₂_of_mapM_eq_ok {f : α → Except Failure β} {xs : List α} {ys : List β} (h : xs.mapM f = .ok ys) :
    List.Forall₂ (fun x y => f x = .ok y) xs ys := by
  induction xs generalizing ys with
  | nil =>
    obtain rfl := Except.ok.inj h
    exact .nil
  | cons x more ih =>
    rw [List.mapM_cons] at h
    obtain ⟨y, hy, h⟩ := bind_eq_ok.mp h
    obtain ⟨others, hothers, h⟩ := bind_eq_ok.mp h
    obtain rfl := Except.ok.inj h
    exact .cons hy (ih hothers)

theorem mem_of_mapM_eq_ok {f : α → Except Failure β} {xs : List α} {ys : List β} (h : xs.mapM f = .ok ys) :
    ∀ y ∈ ys, ∃ x ∈ xs, f x = .ok y := by
  induction xs generalizing ys with
  | nil =>
    obtain rfl := Except.ok.inj h
    intro y hy
    cases hy
  | cons x more ih =>
    rw [List.mapM_cons] at h
    obtain ⟨first, hfirst, h⟩ := bind_eq_ok.mp h
    obtain ⟨others, hothers, h⟩ := bind_eq_ok.mp h
    obtain rfl := Except.ok.inj h
    intro y hy
    rcases List.mem_cons.mp hy with rfl | hy
    · exact ⟨x, List.mem_cons_self .., hfirst⟩
    · obtain ⟨x', hx', hf⟩ := ih hothers y hy
      exact ⟨x', List.mem_cons_of_mem _ hx', hf⟩

end Results

/-! ### Every event of a step -/

/-- Something holds of every event that waits in a step. -/
inductive Step.Every (P : Event → Prop) : Step → Prop where
  | ready {e : Event} (here : P e) : Every P (.ready e)
  | subdivided {budget : Float} {steps : List Step} (inside : ∀ step ∈ steps, Every P step) :
    Every P (.subdivided budget steps)

variable {P : Event → Prop}

mutual

theorem every_of_eventsLasting (hset : ∀ {e : Event} {d : Float}, P e → P (e.setDuration d)) :
    ∀ (d : Float) (step : Step) {events : List Event}, step.Every P → step.eventsLasting d = .ok events →
      ∀ e ∈ events, P e
  | d, .ready e, events, .ready here, h => by
    obtain rfl := Except.ok.inj h
    intro e' he
    obtain rfl := List.mem_singleton.mp he
    exact hset here
  | d, .subdivided budget [], events, hstep, h => by
    simp [Step.eventsLasting] at h
  | d, .subdivided budget (step :: more), events, .subdivided inside, h => by
    simp only [Step.eventsLasting] at h
    exact every_of_eventsEachLasting hset (Step.share d (more.length + 1)) (step :: more) inside h

theorem every_of_eventsEachLasting (hset : ∀ {e : Event} {d : Float}, P e → P (e.setDuration d)) :
    ∀ (d : Float) (steps : List Step) {events : List Event}, (∀ step ∈ steps, step.Every P) →
      Step.eventsEachLasting d steps = .ok events → ∀ e ∈ events, P e
  | d, [], events, hsteps, h => by
    obtain rfl := Except.ok.inj h
    intro e he
    cases he
  | d, step :: more, events, hsteps, h => by
    obtain ⟨first, hfirst, h⟩ := bind_eq_ok.mp h
    obtain ⟨others, hothers, h⟩ := bind_eq_ok.mp h
    obtain rfl := Except.ok.inj h
    intro e he
    rcases List.mem_append.mp he with he | he
    · exact every_of_eventsLasting hset d step (hsteps step (List.mem_cons_self ..)) hfirst e he
    · exact every_of_eventsEachLasting hset d more
        (fun step hstep => hsteps step (List.mem_cons_of_mem _ hstep)) hothers e he

end

theorem every_of_assignDurations (hset : ∀ {e : Event} {d : Float}, P e → P (e.setDuration d))
    (steps : List Step) : ∀ {events : List Event}, (∀ step ∈ steps, step.Every P) →
      assignDurations steps = .ok events → ∀ e ∈ events, P e := by
  induction steps with
  | nil =>
    intro events _ h
    obtain rfl := Except.ok.inj h
    intro e he
    cases he
  | cons step more ih =>
    intro events hsteps h
    obtain ⟨first, hfirst, h⟩ := bind_eq_ok.mp h
    obtain ⟨others, hothers, h⟩ := bind_eq_ok.mp h
    obtain rfl := Except.ok.inj h
    intro e he
    rcases List.mem_append.mp he with he | he
    · cases hsteps step (List.mem_cons_self ..) with
      | ready here =>
        obtain rfl := Except.ok.inj hfirst
        obtain rfl := List.mem_singleton.mp he
        exact here
      | subdivided inside => exact every_of_eventsLasting hset _ _ (.subdivided inside) hfirst e he
    · exact ih (fun step hstep => hsteps step (List.mem_cons_of_mem _ hstep)) hothers e he

/-! ### Nodes that do something to options and degrees -/

/-- The overrides that the nodes inside a node are run under. -/
def Node.scope : Node → Overrides
  | .sequence _ overrides _ _ => overrides
  | .subdivision _ overrides _ => overrides
  | _ => {}

/-- The degrees that a node can generate against options. -/
def Node.Generates (o : Options) : Node → Int → Prop
  | .randomPitch _ overrides, degree =>
    0 ≤ degree ∧ degree < ((overrides.apply o).scale.getD (.named Scale.ionian)).size
  | .randomInteger _ _ low high, degree => min low high ≤ degree ∧ degree ≤ max low high
  | .integer _ value, degree => degree = value
  | .range _ _ first last, degree => degree ∈ integersBetween first last
  | .expression _ _ _, degree => ∃ value, degree = Binary64.floor32 value
  | _, _ => False

/-- The text of a degree that a node generates: the degrees of a range are
    written for themselves, others have the text of the node. -/
def Node.label (degree : Int) : Node → String
  | .range _ _ _ _ => toString degree
  | node => node.text

/-! ### Invariants -/

/-- What is maintained while a tree is run: something of every node at any
    depth and of the operators between lists, of the ambient options and those
    that a bar line goes back to, of a source by the tapes that were started
    since, and of every event. -/
structure Invariant where
  node : Node → Prop := fun _ => True
  operator : ListOperator → Prop := fun _ => True
  options : Options → Prop := fun _ => True
  source : Nat → Source → Prop := fun _ _ => True
  event : Event → Prop := fun _ => True

namespace Invariant

variable (I : Invariant)

/-- A node that may be run. -/
abbrev Admits (node : Node) : Prop := node.Everywhere I.node

/-- A context that nodes may be run in. -/
structure Allows (context : Context) : Prop where
  options : I.options context.options
  start : I.options context.start
  stored : ∀ entry ∈ context.stored, I.Admits entry.2

def Steps (steps : List Step) : Prop := ∀ step ∈ steps, step.Every I.event

def Events (events : List Event) : Prop := ∀ e ∈ events, I.event e

/-- Visits and kept chords do not matter, every event is a node, and every list of
    events is. -/
structure KeptByNodes : Prop where
  shape : ∀ {node other : Node}, I.node node → other.unplayed = node.unplayed → I.node other
  operators : ∀ {text left steps op right}, I.node (.operations text left steps) →
    Operation.binary op right ∈ steps → I.operator op
  played : ∀ {e}, I.event e → I.node (.event e)
  list : ∀ text values, I.node (.sequence text {} true values)

/-- Overrides of brackets, and control items. -/
structure KeptByOptions : Prop where
  scope : ∀ {node : Node} {o}, I.node node → I.options o → I.options (node.scope.apply o)
  duration : ∀ {o}, I.options o → ∀ duration, I.options { o with duration }
  octave : ∀ {o}, I.options o → ∀ octave, I.options { o with octave }

/-- Draws of random nodes, and tapes. -/
structure KeptBySources : Prop where
  index : ∀ {n s text overrides}, I.node (.randomPitch text overrides) → I.source n s →
    ∀ length, I.source n (s.index length).2
  integer : ∀ {n s text overrides low high}, I.node (.randomInteger text overrides low high) → I.source n s →
    I.source n (s.integer low high).2
  record : ∀ {n s}, I.source n s → I.source (n + 1) s.record
  rewind : ∀ {n s}, I.source (n + 1) s → I.source (n + 1) s.rewind
  finish : ∀ {n s}, I.source (n + 1) s → I.source n s.finish

/-- The ways in which events are made. -/
structure KeptByEvents : Prop where
  against : ∀ {e o}, I.node (.event e) → I.options o → I.event (e.against o)
  /-- The chord may have been kept since the options were others. -/
  numeral : ∀ {k : KeptNumeral} {options c}, I.node (.numeral k) → k.numeral.chordFor options = .ok c →
    I.event (.chord c)
  generated : ∀ {node : Node} {o degree}, I.node node → I.options o → node.Generates o degree →
    ∀ overrides, I.event (.pitch (.generated degree (node.label degree) overrides o))
  silence : ∀ text duration, I.event (.rest { text, duration := some duration })
  sample : ∀ text name duration, I.event (.sample { text, name, duration := some duration })
  function : ∀ text run duration, I.event (.function { text, run, duration := some duration })
  together : ∀ {layers : List (List Event)} text, (∀ layer ∈ layers, I.Events layer) →
    I.event (.polyphony text layers)
  setDuration : ∀ {e : Event} {d}, I.event e → I.event (e.setDuration d)
  combined : ∀ {o op l r e}, I.options o → I.operator (.arithmetic op) → l.isPitched = true → r.isPitched = true →
    I.event l → I.event r → ListArithmetic.combinePair op o l r = .ok e → I.event e
  mapped : ∀ {o expr e e'}, I.options o → I.event e → ListArithmetic.mapEvent expr o e = .ok e' → I.event e'
  vertical : ∀ {l i e}, I.operator .vertical → ListArithmetic.tonesOf l ≠ [] → I.event l → I.event i →
    e ∈ ListArithmetic.pickVertical (ListArithmetic.tonesOf l) i → I.event e
  horizontal : ∀ {pool i e}, I.operator .horizontal → I.Events pool → I.event i →
    e ∈ ListArithmetic.pickHorizontal pool i → I.event e

/-- **What every rule of evaluation has to respect.** -/
structure Kept : Prop extends I.KeptByNodes, I.KeptByOptions, I.KeptBySources, I.KeptByEvents

variable {I}

theorem KeptByOptions.of_all (h : ∀ o, I.options o) : I.KeptByOptions where
  scope := fun _ _ => h _
  duration := fun _ _ => h _
  octave := fun _ _ => h _

theorem KeptBySources.of_all (h : ∀ n s, I.source n s) : I.KeptBySources where
  index := fun _ _ _ => h _ _
  integer := fun _ _ => h _ _
  record := fun _ => h _ _
  rewind := fun _ => h _ _
  finish := fun _ => h _ _

theorem KeptByEvents.of_all (h : ∀ e, I.event e) : I.KeptByEvents where
  against := fun _ _ => h _
  numeral := fun _ _ => h _
  generated := fun _ _ _ _ => h _
  silence := fun _ _ => h _
  sample := fun _ _ _ => h _
  function := fun _ _ _ => h _
  together := fun _ _ => h _
  setDuration := fun _ => h _
  combined := fun _ _ _ _ _ _ _ => h _
  mapped := fun _ _ _ => h _
  vertical := fun _ _ _ _ _ => h _
  horizontal := fun _ _ _ _ => h _

/-! ### Nodes and contexts -/

theorem Admits.of_unplayed_eq (hI : I.Kept) {node other : Node} (h : I.Admits node)
    (hshape : other.unplayed = node.unplayed) : I.Admits other :=
  Node.Everywhere.of_unplayed_eq hI.shape h hshape

theorem Admits.of_unplayedAll_eq (hI : I.Kept) {nodes others : List Node} (h : ∀ node ∈ nodes, I.Admits node)
    (hshape : unplayedAll others = unplayedAll nodes) : ∀ node ∈ others, I.Admits node :=
  Node.forall_of_unplayedAll_eq (fun hnode => hnode.of_unplayed_eq hI) h hshape

theorem Admits.event (hI : I.Kept) {e : Event} (h : I.event e) : I.Admits (.event e) := by
  refine .intro (hI.played h) ?_
  intro child hchild
  cases hchild

theorem Admits.list (hI : I.Kept) {events : List Event} (h : I.Events events) (text : String) :
    I.Admits (.sequence text {} true (events.map .event)) := by
  refine .intro (hI.list text _) ?_
  intro child hchild
  obtain ⟨e, he, rfl⟩ := List.mem_map.mp hchild
  exact Admits.event hI (h e he)

/-- A pattern starts without variables. -/
theorem Allows.ofOptions {options : Options} (h : I.options options) : I.Allows (.ofOptions options) := by
  refine ⟨h, h, ?_⟩
  intro entry hentry
  cases hentry

/-- Options under overrides, if there are any. -/
theorem Allows.inside_of {context : Context} (h : I.Allows context) {overrides : Overrides}
    (hoptions : I.options (overrides.apply context.options)) : I.Allows (context.inside overrides) := by
  unfold Context.inside
  by_cases hempty : overrides.isEmpty
  · rw [if_pos hempty]
    exact h
  · rw [if_neg hempty]
    exact ⟨hoptions, h.start, h.stored⟩

theorem Allows.inside (hI : I.Kept) {context : Context} (h : I.Allows context) {node : Node} (hnode : I.node node) :
    I.Allows (context.inside node.scope) :=
  h.inside_of (hI.scope hnode h.options)

theorem Allows.insideList (hI : I.Kept) {context : Context} (h : I.Allows context) {node : Node} (hnode : I.node node) :
    I.Allows (context.inside node.listOverrides) := by
  cases node with
  | sequence text overrides isList values => exact h.inside hI hnode
  | _ => exact h

theorem Allows.after (hI : I.Kept) {context : Context} (h : I.Allows context) (change : Change) :
    I.Allows (context.after change) := by
  refine ⟨?_, h.start, h.stored⟩
  cases change with
  | duration value => exact hI.duration h.options value
  | octave value => exact hI.octave h.options value
  | octaveAdd shift => exact hI.octave h.options (context.options.octave + shift)

theorem Allows.nextMeasure {context : Context} (h : I.Allows context) : I.Allows context.nextMeasure :=
  ⟨h.start, h.start, h.stored⟩

theorem mem_of_mem_insert {α : Type} {name : String} {a : α} {entry : String × α} {entries : Named α}
    (h : entry ∈ Named.insert name a entries) : entry = (name, a) ∨ entry ∈ entries := by
  induction entries with
  | nil => exact .inl (List.mem_singleton.mp h)
  | cons first rest ih =>
    simp only [Named.insert] at h
    split at h
    · rcases List.mem_cons.mp h with rfl | h
      · exact .inl rfl
      · exact .inr (List.mem_cons_of_mem _ h)
    · split at h
      · rcases List.mem_cons.mp h with rfl | h
        · exact .inl rfl
        · exact .inr h
      · rcases List.mem_cons.mp h with rfl | h
        · exact .inr (List.mem_cons_self ..)
        · rcases ih h with rfl | h
          · exact .inl rfl
          · exact .inr (List.mem_cons_of_mem _ h)

theorem Allows.assign {context : Context} {value : Node} (h : I.Allows context) (hvalue : I.Admits value)
    (name : String) : I.Allows (context.assign name value) := by
  refine ⟨h.options, h.start, ?_⟩
  intro entry hentry
  rcases mem_of_mem_insert hentry with rfl | hentry
  · exact hvalue
  · exact h.stored entry hentry

theorem Allows.lookup {context : Context} {name : String} {value : Node} (h : I.Allows context)
    (hvalue : context.stored.lookup name = some value) : I.Admits value := by
  obtain ⟨before, after, hstored, -⟩ := List.lookup_eq_some_iff.mp hvalue
  refine h.stored (name, value) ?_
  rw [hstored]
  exact List.mem_append_right _ (List.mem_cons_self ..)

theorem steps_nil : I.Steps [] := by
  intro step hstep
  cases hstep

theorem steps_append {steps others : List Step} (h : I.Steps steps) (hothers : I.Steps others) :
    I.Steps (steps ++ others) := by
  intro step hstep
  rcases List.mem_append.mp hstep with hstep | hstep
  · exact h step hstep
  · exact hothers step hstep

theorem steps_ready {e : Event} (h : I.event e) : I.Steps [.ready e] := by
  intro step hstep
  obtain rfl := List.mem_singleton.mp hstep
  exact .ready h

theorem steps_map_ready {events : List Event} (h : I.Events events) : I.Steps (events.map .ready) := by
  intro step hstep
  obtain ⟨e, he, rfl⟩ := List.mem_map.mp hstep
  exact .ready (h e he)

theorem events_of_assignDurations (hI : I.Kept) {steps : List Step} (h : I.Steps steps) {events : List Event}
    (hevents : assignDurations steps = .ok events) : I.Events events :=
  every_of_assignDurations hI.setDuration steps h hevents

end Invariant

/-! ### Runs -/

/-- A run leaves a context and a source that the invariant allows, and if it
    yields something, then something good. -/
structure Run.Obeys {σ ρ : Type} (I : Invariant) (n : Nat) (good : ρ → Prop) (run : Run σ ρ) : Prop where
  context : I.Allows run.context
  source : I.source n run.source
  result : ∀ value, run.result = .ok value → good value

namespace Run.Obeys

variable {σ σ' ρ ρ' : Type} {I : Invariant} {n : Nat} {good : ρ → Prop} {good' : ρ' → Prop} {run : Run σ ρ}

theorem withTree (h : run.Obeys I n good) (f : σ → σ') : (run.withTree f).Obeys I n good :=
  ⟨h.context, h.source, h.result⟩

theorem withResult (h : run.Obeys I n good) {f : ρ → Except Failure ρ'}
    (hf : ∀ value, good value → ∀ value', f value = .ok value' → good' value') :
    (run.withResult f).Obeys I n good' := by
  refine ⟨h.context, h.source, ?_⟩
  intro value' hvalue'
  obtain ⟨value, hvalue, hf'⟩ := bind_eq_ok.mp hvalue'
  exact hf value (h.result value hvalue) value' hf'

theorem back (h : run.Obeys I n good) {context : Context} (hcontext : I.Allows context) :
    (run.back context).Obeys I n good :=
  ⟨hcontext, h.source, h.result⟩

theorem andThen (h : run.Obeys I n good) (untouched : σ') {next : ρ → Context → Source → Run σ' ρ'}
    (hnext : ∀ value context source, good value → I.Allows context → I.source n source →
      (next value context source).Obeys I n good') : (run.andThen untouched next).Obeys I n good' := by
  unfold Run.andThen
  cases hresult : run.result with
  | error failure => exact ⟨h.context, h.source, fun _ hvalue => by cases hvalue⟩
  | ok value => exact (hnext value _ _ (h.result value hresult) h.context h.source).withTree _

theorem onward (h : run.Obeys I n good) {next : Run σ ρ → ρ → Run σ ρ}
    (hnext : ∀ value, good value → (next run value).Obeys I n good) : (run.onward next).Obeys I n good := by
  unfold Run.onward
  cases hresult : run.result with
  | error failure => exact h
  | ok value => exact hnext value (h.result value hresult)

/-- Steps in front of those that a run yields. -/
theorem behind {run : Run σ (List Step)} (h : run.Obeys I n I.Steps) {steps : List Step} (hsteps : I.Steps steps) :
    (run.withResult fun others => .ok (steps ++ others)).Obeys I n I.Steps := by
  refine h.withResult fun others hothers all hall => ?_
  obtain rfl := Except.ok.inj hall
  exact Invariant.steps_append hsteps hothers

theorem failed {tree : σ'} {failure : Failure} {context : Context} {source : Source} (hcontext : I.Allows context)
    (hsource : I.source n source) : (⟨tree, context, source, .error failure⟩ : Run σ' ρ').Obeys I n good' :=
  ⟨hcontext, hsource, fun _ hvalue => by cases hvalue⟩

theorem yielded {tree : σ'} {value : ρ'} {context : Context} {source : Source} (hcontext : I.Allows context)
    (hsource : I.source n source) (hvalue : good' value) :
    (⟨tree, context, source, .ok value⟩ : Run σ' ρ').Obeys I n good' := by
  refine ⟨hcontext, hsource, ?_⟩
  intro value' heq
  obtain rfl := Except.ok.inj heq
  exact hvalue

end Run.Obeys

end NumberedMelody
