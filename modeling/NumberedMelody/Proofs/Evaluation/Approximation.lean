/-
  NumberedMelody/Proofs/Evaluation/Approximation.lean
  ===================================================
  **Runs that reach their end.**  A realizer approximates another one if it runs
  every node as the other does, or else gives up because variables nest too deep.
  Nothing catches that failure, so levels over the one approximate levels over
  the other (`Approximates.level`).  A limit on variables therefore changes
  nothing about a run that does not meet it: such a run has a derivation without
  any limit (`evaluatesAll_evaluate`).
-/
import NumberedMelody.Proofs.Evaluation.Derivation

namespace NumberedMelody

open NumberedMelody.Random (Source)

/-! ### Runs -/

namespace Run

variable {σ τ ρ π : Type}

/-- The first run is the second one, or it gave up. -/
def Approximates (x y : Run σ ρ) : Prop := x.result = .error .nestedTooDeep ∨ x = y

namespace Approximates

variable {x y : Run σ ρ}

theorem refl (x : Run σ ρ) : x.Approximates x := .inr rfl

theorem eq_of_ne (h : x.Approximates y) (hx : x.result ≠ .error .nestedTooDeep) : x = y := h.resolve_left hx

theorem withTree (h : x.Approximates y) (f : σ → τ) : (x.withTree f).Approximates (y.withTree f) :=
  h.imp id (congrArg (Run.withTree · f))

theorem withResult (h : x.Approximates y) (f : ρ → Except Failure π) : (x.withResult f).Approximates (y.withResult f) :=
  h.imp (result_withResult_of_error f) (congrArg (Run.withResult · f))

theorem back (h : x.Approximates y) (context : Context) : (x.back context).Approximates (y.back context) :=
  h.imp id (congrArg (Run.back · context))

theorem andThen (h : x.Approximates y) (untouched : τ) {next next' : ρ → Context → Source → Run τ π}
    (hnext : ∀ value context source, (next value context source).Approximates (next' value context source)) :
    (x.andThen untouched next).Approximates (y.andThen untouched next') := by
  rcases h with hdeep | rfl
  · exact .inl (result_andThen_of_error untouched next hdeep)
  · unfold Run.andThen
    cases x.result with
    | error failure => exact .refl _
    | ok value => exact (hnext value x.context x.source).withTree _

theorem onward (h : x.Approximates y) {next next' : Run σ ρ → ρ → Run σ ρ}
    (hnext : ∀ value, (next y value).Approximates (next' y value)) : (x.onward next).Approximates (y.onward next') := by
  rcases h with hdeep | rfl
  · exact .inl ((congrArg result (onward_of_error next hdeep)).trans hdeep)
  · unfold Run.onward
    cases x.result with
    | error failure => exact .refl _
    | ok value => exact hnext value

end Approximates

end Run

namespace Realizer

/-- Every node is run alike, but for what the first realizer gives up. -/
def Approximates (r r' : Realizer) : Prop :=
  ∀ node context source, (r node context source).Approximates (r' node context source)

theorem exhausted_approximates (r : Realizer) : Approximates exhausted r := fun _ _ _ => .inl rfl

variable {r r' : Realizer}

namespace Approximates

/-! ### Nodes in order -/

theorem inOrder (h : Approximates r r') (nodes : List Node) :
    ∀ (context : Context) (source : Source),
      (inOrder r nodes context source).Approximates (inOrder r' nodes context source) := by
  induction nodes with
  | nil => exact fun _ _ => .refl _
  | cons node more ih =>
    intro context source
    exact ((h node context source).andThen more fun _ context source => (ih context source).withResult _).withTree _

theorem events (h : Approximates r r') (node : Node) (context : Context) (source : Source) :
    (events r node context source).Approximates (events r' node context source) :=
  ((h node context source).withResult _).back _

/-! ### Numbers and repeats -/

theorem number (h : Approximates r r') (node : Node) (context : Context) (source : Source) :
    (number r node context source).Approximates (number r' node context source) := by
  cases node with
  | integer text value => exact .refl _
  | _ => exact ((h _ context source).withResult _).back _

theorem passes (h : Approximates r r') (prepare : Source → Source) (context : Context) (times : Nat) :
    ∀ (nodes : List Node) (source : Source),
      (passes r prepare context times nodes source).Approximates (passes r' prepare context times nodes source) := by
  induction times with
  | zero => exact fun _ _ => .refl _
  | succ times ih =>
    intro nodes source
    rw [passes_succ, passes_succ]
    exact ((h.inOrder nodes context _).back context).onward fun _ => (ih _ _).withResult _

theorem repeated (h : Approximates r r') (prepare : Source → Source) (times : Nat) (nodes : List Node)
    (context : Context) (source : Source) :
    (repeated r prepare times nodes context source).Approximates (repeated r' prepare times nodes context source) := by
  cases times with
  | zero => exact .refl _
  | succ times =>
    rw [repeated_succ, repeated_succ]
    exact (h.passes id context 1 nodes source).onward fun _ => (h.passes prepare context times _ _).withResult _

theorem repetition (h : Approximates r r') (text : String) (replayed : Bool) (values : List Node) (count : Node)
    (context : Context) (source : Source) :
    (repetition r text replayed values count context source).Approximates
      (repetition r' text replayed values count context source) := by
  unfold Realizer.repetition
  refine ((h.number count context source).andThen values ?_).withTree _
  intro times context source
  by_cases htimes : times ≤ 0
  · simp only [if_pos htimes]
    exact .refl _
  · simp only [if_neg htimes]
    cases replayed with
    | false => exact h.repeated id times.toNat values context source
    | true =>
      simp only [if_true]
      exact (h.repeated Source.rewind times.toNat values context source.record).imp id fun heq => by rw [heq]

/-! ### List operations -/

theorem zipped (h : Approximates r r') (left : List Node) (right : Option Node) (context : Context) (source : Source) :
    (zipped r left right context source).Approximates (zipped r' left right context source) :=
  (((h.inOrder _ context source).withResult _).back _).withTree _

theorem operand (h : Approximates r r') (right : Option Node) (context : Context) (source : Source) :
    (operand r right context source).Approximates (operand r' right context source) := by
  cases right with
  | none => exact .refl _
  | some node => exact (h.events node context source).withTree _

theorem operation (h : Approximates r r') (left : List Event) (step : Operation Node) (context : Context)
    (source : Source) :
    (operation r left step context source).Approximates (operation r' left step context source) := by
  cases step with
  | map expr => exact .refl _
  | binary op right =>
    cases op with
    | zip => exact (h.zipped _ right context source).withTree _
    | vertical => exact ((h.operand right context source).withTree _).withResult _
    | horizontal => exact ((h.operand right context source).withTree _).withResult _
    | arithmetic op => exact ((h.operand right context source).withTree _).withResult _

theorem operationsOn (h : Approximates r r') (steps : List (Operation Node)) :
    ∀ (left : List Event) (context : Context) (source : Source),
      (operationsOn r left steps context source).Approximates (operationsOn r' left steps context source) := by
  induction steps with
  | nil => exact fun _ _ _ => .refl _
  | cons step more ih =>
    intro left context source
    exact ((h.operation left step context source).andThen more ih).withTree _

theorem operations (h : Approximates r r') (text : String) (left : Node) (steps : List (Operation Node))
    (context : Context) (source : Source) :
    (operations r text left steps context source).Approximates (operations r' text left steps context source) := by
  unfold Realizer.operations
  refine Run.Approximates.withResult ?_ _
  split
  · exact ((h.zipped _ _ context source).andThen _ (h.operationsOn _)).withTree _
  · exact ((h.events left context source).andThen steps (h.operationsOn steps)).withTree _

/-! ### Lists dealt out -/

theorem deal (h : Approximates r r') (deck : Deck) (source : Source) :
    (deck.deal r source).Approximates (deck.deal r' source) := by
  unfold Deck.deal
  cases hplace : deck.elements[deck.dealt % deck.elements.length]? with
  | none =>
    simp only [hplace]
    exact .refl _
  | some element =>
    simp only [hplace]
    exact (h element deck.context source).imp id fun heq => by rw [heq]

theorem beat (h : Approximates r r') (silence : Step) (hit : Bool) (on off : Deck) (source : Source) :
    (beat r silence hit on off source).Approximates (beat r' silence hit on off source) := by
  unfold Realizer.beat
  split
  · exact (h.deal on source).withTree _
  · split
    · exact .refl _
    · exact (h.deal off source).withTree _

theorem dealt (h : Approximates r r') (silence : Step) (rhythm : List Bool) :
    ∀ (on off : Deck) (source : Source),
      (dealt r silence rhythm on off source).Approximates (dealt r' silence rhythm on off source) := by
  induction rhythm with
  | nil => exact fun _ _ _ => .refl _
  | cons hit more ih =>
    intro on off source
    rw [dealt_cons, dealt_cons]
    exact (h.beat silence hit on off source).onward fun _ => (ih _ _ _).withResult _

theorem euclid (h : Approximates r r') (text : String) (pulses length : Nat) (rotate : Int) (onset : Node)
    (offset : Option Node) (context : Context) (source : Source) :
    (euclid r text pulses length rotate onset offset context source).Approximates
      (euclid r' text pulses length rotate onset offset context source) := by
  unfold Realizer.euclid
  split
  · exact .refl _
  · exact ((h.dealt _ _ _ _ source).back context).withTree _

/-! ### Variables -/

theorem use (h : Approximates r r') (name text : String) (context : Context) (source : Source) :
    (use r name text context source).Approximates (use r' name text context source) := by
  unfold Realizer.use
  cases context.stored.lookup name with
  | none => exact .refl _
  | some node => exact (h node context source).withTree _

theorem layers (h : Approximates r r') (context : Context) (names : List String) :
    ∀ source : Source, (layers r context names source).Approximates (layers r' context names source) := by
  induction names with
  | nil => exact fun _ => .refl _
  | cons name more ih =>
    intro source
    have hlayer := ((h.use name name context source).withResult assignDurations).back context
    rw [layers_cons, layers_cons]
    exact (hlayer.andThen () fun _ _ source => (ih source).withResult _).withTree _

/-! ### One level -/

theorem visit (h : Approximates r r') (text : String) (values : List Node) (visits : Nat) (context : Context)
    (source : Source) :
    (visit r text values visits context source).Approximates (visit r' text values visits context source) := by
  unfold Realizer.visit
  cases hplace : values[visits % values.length]? with
  | none =>
    simp only [hplace]
    exact .refl _
  | some value =>
    simp only [hplace]
    exact (h value context source).withTree _

theorem assignment (h : Approximates r r') (text name : String) (eager : Bool) (value : Node) (context : Context)
    (source : Source) :
    (assignment r text name eager value context source).Approximates
      (assignment r' text name eager value context source) := by
  unfold Realizer.assignment
  cases eager with
  | false => exact .refl _
  | true =>
    simp only [if_true]
    rcases h.events value context source with hdeep | heq
    · simp only [hdeep]
      exact .inl rfl
    · rw [heq]
      exact .refl _

/-- **A level over an approximation approximates the level.** -/
theorem level {inner inner' stored stored' : Realizer} (h : Approximates inner inner')
    (hstored : Approximates stored stored') : Approximates (level inner stored) (level inner' stored') := by
  intro node context source
  cases node with
  | sequence text overrides isList values => exact ((h.inOrder values _ source).back context).withTree _
  | cycle text values visits => exact h.visit text values visits context source
  | subdivision text overrides values => exact (((h.inOrder values _ source).withResult _).back context).withTree _
  | repetition text replayed values count => exact h.repetition text replayed values count context source
  | operations text left steps => exact h.operations text left steps context source
  | euclid text pulses length rotate onset offset =>
    exact h.euclid text pulses length rotate onset offset context source
  | assignment text name eager value => exact h.assignment text name eager value context source
  | «variable» text name => exact (hstored.use name text context source).withTree _
  | together text names => exact ((hstored.layers context names source).withResult _).withTree _
  | _ => exact .refl _

end Approximates

/-! ### The runs that there are -/

open Classical in
/-- The run of a node that can be derived, if there is one. -/
noncomputable def derived : Realizer := fun node context source =>
  if h : ∃ run, Evaluates node context source run then h.choose else exhausted node context source

/-- A node has a run. -/
def Ends (node : Node) (context : Context) (source : Source) : Prop := ∃ run, Evaluates node context source run

variable {node : Node} {context : Context} {source : Source}

theorem derived_eq {run : Run Node (List Step)} (h : Evaluates node context source run) :
    derived node context source = run := by
  have hends : ∃ run, Evaluates node context source run := ⟨run, h⟩
  unfold derived
  rw [dif_pos hends]
  exact hends.choose_spec.unique h

theorem evaluates_derived (h : Ends node context source) : Evaluates node context source (derived node context source) := by
  obtain ⟨run, hrun⟩ := h
  rw [derived_eq hrun]
  exact hrun

theorem derived_of_not_ends (h : ¬ Ends node context source) :
    derived node context source = ⟨node, context, source, .error .nestedTooDeep⟩ := dif_neg h

/-- A node that calls for no other run has its own. -/
theorem derived_of_level {run : Run Node (List Step)} (h : ∀ r, level r r node context source = run) :
    derived node context source = run :=
  derived_eq (.level (fun _ _ _ => False) idle (fun _ _ _ hcalls => hcalls.elim) fun r _ => h r)

theorem derived_assignment (text name : String) (value : Node) (context : Context) (source : Source) :
    derived (.assignment text name false value) context source =
      ⟨.assignment text name false value, context.assign name value, source, .ok []⟩ :=
  derived_of_level fun _ => rfl

theorem inOrder_assignment (text name : String) (value : Node) (nodes : List Node) (context : Context)
    (source : Source) :
    inOrder derived (.assignment text name false value :: nodes) context source =
      (inOrder derived nodes (context.assign name value) source).withTree (.assignment text name false value :: ·) := by
  rw [inOrder, derived_assignment]
  simp only [Run.andThen, Run.withResult, Run.withTree, List.nil_append]
  cases (inOrder derived nodes (context.assign name value) source).result <;> rfl

/-- What agrees with the derived runs is approximated by them. -/
theorem derived_approximates {r : Realizer} (h : Agrees Ends derived r) : Approximates derived r := by
  intro node context source
  by_cases hends : Ends node context source
  · exact .inr (h node context source hends).symm
  · rw [derived_of_not_ends hends]
    exact .inl rfl

/-- A level over derived runs has a derivation, unless it gives up. -/
theorem evaluates_level (h : (level derived derived node context source).result ≠ .error .nestedTooDeep) :
    Evaluates node context source (level derived derived node context source) := by
  refine .level Ends derived (fun _ _ _ => evaluates_derived) fun r hr => ?_
  have happroximates := derived_approximates hr
  exact ((happroximates.level happroximates node context source).eq_of_ne h).symm

theorem level_approximates_derived {inner stored : Realizer} (h : Approximates inner derived)
    (hstored : Approximates stored derived) : Approximates (level inner stored) derived := by
  intro node context source
  rcases h.level hstored node context source with hdeep | heq
  · exact .inl hdeep
  · by_cases hdeep : (level derived derived node context source).result = .error .nestedTooDeep
    · exact .inl (heq ▸ hdeep)
    · exact .inr (heq.trans (derived_eq (evaluates_level hdeep)).symm)

/-- **A limit on variables cuts runs off, and does no more.** -/
theorem nested_approximates_derived (limit : Nat) : Approximates (nested limit) derived := by
  induction limit with
  | zero => exact exhausted_approximates derived
  | succ limit ih =>
    have hdepth (depth : Nat) : Approximates (toDepth (nested limit) depth) derived := by
      induction depth with
      | zero => exact exhausted_approximates derived
      | succ depth ihDepth => exact level_approximates_derived ihDepth ih
    exact fun node => hdepth node.depth node

end Realizer

open Realizer (derived derived_eq evaluates_derived Ends)

variable {nodes : List Node} {context : Context} {source : Source}

/-! ### Where derived runs stay -/

theorem derived_keepsShape : Realizer.KeepsShape derived := by
  intro node context source
  by_cases hends : Ends node context source
  · exact (evaluates_derived hends).keepsShape
  · rw [Realizer.derived_of_not_ends hends]

theorem derived_follows {D : Domain} {P : Node → Prop} (hD : D.Lawful) (hadmits : D.Admits P P)
    (hP : Realizer.Within P P) (hdeep : D.failure .nestedTooDeep) : Realizer.Follows D P derived derived := by
  intro node context source hnode hcontext
  by_cases hends : Ends node context source
  · exact (evaluates_derived hends).stays hD hadmits hP hnode hcontext
  · rw [Realizer.derived_of_not_ends hends]
    exact .failed hcontext hdeep

/-! ### Derived runs do not give up -/

/-- Everything but the limit. -/
def unlimited : Domain where
  failure := (· ≠ .nestedTooDeep)

theorem unlimited_lawful : unlimited.Lawful where
  inside := fun _ _ => trivial
  after := fun _ _ => trivial
  nextMeasure := fun _ => trivial
  played := fun _ _ _ _ => trivial
  ordinary := by
    rintro failure hordinary rfl
    cases hordinary

theorem unlimited_admits : unlimited.Admits (fun _ => True) fun _ => True where
  assign := fun _ _ => trivial
  numeral := by
    rintro k context - - failure hfailure rfl
    cases k.numeral.chord_blames context.options _ hfailure
  found := fun _ _ _ _ => trivial
  unknown := by
    rintro _ _ _ - - - - - ⟨⟩

theorem Evaluates.result_ne {node : Node} {run : Run Node (List Step)} (h : Evaluates node context source run) :
    run.result ≠ .error .nestedTooDeep := fun hdeep =>
  (h.stays unlimited_lawful unlimited_admits (.all _) trivial trivial).blames _ hdeep rfl

theorem EvaluatesAll.result_ne {run : Run (List Node) (List Event)} (h : EvaluatesAll nodes context source run) :
    run.result ≠ .error .nestedTooDeep := fun hdeep =>
  (h.stays unlimited_lawful unlimited_admits (.all _) (fun _ _ => trivial) trivial).blames _ hdeep rfl

/-- What nodes in order yield over derived runs has a derivation, unless it gives up. -/
theorem evaluatesAll_iff {run : Run (List Node) (List Event)} :
    EvaluatesAll nodes context source run ↔ run.result ≠ .error .nestedTooDeep ∧
      (Realizer.inOrder derived nodes context source).withResult assignDurations = run := by
  constructor
  · intro h
    refine ⟨h.result_ne, ?_⟩
    obtain ⟨calls, known, inner, outer⟩ := h
    exact outer derived fun node context source hcalls => derived_eq (inner node context source hcalls)
  · rintro ⟨hdeep, hrun⟩
    refine ⟨Ends, derived, fun _ _ _ => evaluates_derived, fun r hr => ?_⟩
    have happroximates := ((Realizer.derived_approximates hr).inOrder nodes context source).withResult assignDurations
    rw [hrun] at happroximates
    exact (happroximates.eq_of_ne hdeep).symm

/-- **Evaluation that does not meet the limit has a derivation without any.** -/
theorem evaluatesAll_evaluate (h : (evaluate nodes context source).result ≠ .error .nestedTooDeep) :
    EvaluatesAll nodes context source (evaluate nodes context source) := by
  have happroximates := ((Realizer.nested_approximates_derived nestingLimit).inOrder nodes context source).withResult
    assignDurations
  exact evaluatesAll_iff.mpr ⟨h, (happroximates.eq_of_ne h).symm⟩

/-- Evaluation that has no derivation meets every limit. -/
theorem evaluate_of_endless (h : ∀ run, ¬ EvaluatesAll nodes context source run) :
    (evaluate nodes context source).result = .error .nestedTooDeep := by
  by_contra hends
  exact h _ (evaluatesAll_evaluate hends)

end NumberedMelody
