/-
  NumberedMelody/Proofs/Evaluation/Brackets.lean
  ==============================================
  **Brackets isolate what is inside them.**  Lists, subdivisions, repeats, list
  operations, rhythms and layers are run in a copy of the context: options,
  bars passed and variables are the same behind them, whatever control items,
  bar lines and assignments they hold at any depth (`realize_bracket_context`).
  The tapes that repeats inside them start are gone again, so that the source
  is left as some number of direct draws leaves it (`realize_stacked`).

  A bracket that draws nothing can therefore be put in the place of another,
  and nothing around it sounds different (`brackets_isolate`).
-/
import NumberedMelody.Proofs.Evaluation.Lockstep
import NumberedMelody.Proofs.Evaluation.Pieces
import NumberedMelody.Proofs.Evaluation.Stateless
import NumberedMelody.Proofs.Random.Draws

namespace NumberedMelody

open NumberedMelody.Random (Source)

/-- The node is run in a copy of the context. -/
def Node.isBracket : Node → Bool
  | .sequence _ _ _ _ => true
  | .subdivision _ _ _ => true
  | .repetition _ _ _ _ => true
  | .operations _ _ _ => true
  | .euclid _ _ _ _ _ _ => true
  | .together _ _ => true
  | _ => false

/-! ### The context behind a bracket -/

theorem Run.andThen_context {σ σ' ρ ρ' : Type} {context : Context} {first : Run σ ρ}
    (hfirst : first.context = context) (untouched : σ') {next : ρ → Context → Source → Run σ' ρ'}
    (hnext : ∀ value source, (next value context source).context = context) :
    (first.andThen untouched next).context = context := by
  unfold Run.andThen
  cases first.result with
  | error failure => exact hfirst
  | ok value =>
    rw [hfirst]
    exact hnext value _

theorem Run.onward_context {σ ρ : Type} {context : Context} {run : Run σ ρ} (hrun : run.context = context)
    {next : Run σ ρ → ρ → Run σ ρ} (hnext : ∀ value, (next run value).context = context) :
    (run.onward next).context = context := by
  unfold Run.onward
  cases run.result with
  | error failure => exact hrun
  | ok value => exact hnext value

namespace Realizer

variable (realize : Realizer) (context : Context) (source : Source)

theorem number_context (node : Node) : (number realize node context source).context = context := by
  cases node <;> rfl

theorem passes_context (prepare : Source → Source) (times : Nat) :
    ∀ (nodes : List Node) (source : Source),
      (passes realize prepare context times nodes source).context = context := by
  induction times with
  | zero =>
    intro nodes source
    rfl
  | succ times ih =>
    intro nodes source
    rw [passes_succ]
    exact Run.onward_context rfl fun _ => ih _ _

theorem repeated_context (prepare : Source → Source) (times : Nat) (nodes : List Node) :
    (repeated realize prepare times nodes context source).context = context := by
  cases times with
  | zero => rfl
  | succ times =>
    rw [repeated_succ]
    exact Run.onward_context (passes_context realize context id 1 nodes source) fun _ =>
      passes_context realize context prepare times _ _

theorem repetition_context (text : String) (replayed : Bool) (values : List Node) (count : Node) :
    (repetition realize text replayed values count context source).context = context := by
  refine Run.andThen_context (number_context realize context source count) values ?_
  intro times source
  by_cases htimes : times ≤ 0
  · simp only [if_pos htimes]
  · cases replayed with
    | false =>
      simp only [if_neg htimes]
      exact repeated_context realize context source id _ values
    | true =>
      simp only [if_neg htimes, if_true]
      exact repeated_context realize context source.record Source.rewind _ values

theorem operand_context (right : Option Node) : (operand realize right context source).context = context := by
  cases right <;> rfl

theorem operation_context (left : List Event) (step : Operation Node) :
    (operation realize left step context source).context = context := by
  cases step with
  | map expr => rfl
  | binary op right =>
    cases op with
    | zip => rfl
    | vertical => exact operand_context realize context source right
    | horizontal => exact operand_context realize context source right
    | arithmetic op => exact operand_context realize context source right

theorem operationsOn_context (steps : List (Operation Node)) :
    ∀ (left : List Event) (source : Source),
      (operationsOn realize left steps context source).context = context := by
  induction steps with
  | nil =>
    intro left source
    rfl
  | cons step more ih =>
    intro left source
    exact Run.andThen_context (operation_context realize context source left step) more ih

theorem operations_context (text : String) (left : Node) (steps : List (Operation Node)) :
    (operations realize text left steps context source).context = context := by
  unfold operations
  split
  · next right more => exact Run.andThen_context rfl more (operationsOn_context realize context more)
  · exact Run.andThen_context rfl steps (operationsOn_context realize context steps)

theorem euclid_context (text : String) (pulses length : Nat) (rotate : Int) (onset : Node) (offset : Option Node) :
    (euclid realize text pulses length rotate onset offset context source).context = context := by
  unfold euclid
  split <;> rfl

theorem layers_context (names : List String) :
    ∀ source : Source, (layers realize context names source).context = context := by
  induction names with
  | nil =>
    intro source
    rfl
  | cons name more ih =>
    intro source
    unfold layers
    cases hresult : (((use realize name name context source).withResult assignDurations).back context).result with
    | error failure => simp only [hresult]
    | ok layer =>
      simp only [hresult]
      exact ih _

theorem level_bracket_context {inner stored : Realizer} {node : Node} (h : node.isBracket = true) (context : Context)
    (source : Source) : (level inner stored node context source).context = context := by
  cases node with
  | sequence text overrides isList values => rfl
  | subdivision text overrides values => rfl
  | repetition text replayed values count => exact repetition_context _ context source text replayed values count
  | operations text left steps => exact operations_context _ context source text left steps
  | euclid text pulses length rotate onset offset =>
    exact euclid_context _ context source text pulses length rotate onset offset
  | together text names => exact layers_context _ context names source
  | _ => cases h

end Realizer

/-- **Nothing of the context leaves a bracket.** -/
theorem realize_bracket_context {node : Node} (h : node.isBracket = true) (context : Context) (source : Source) :
    (realize node context source).context = context := by
  rw [realize_eq_level]
  exact Realizer.level_bracket_context h context source

/-! ### The source behind a node -/

/-- Sources hold the tapes that were started since, over what direct draws
    leave of the source that evaluation began with. -/
def stacking (base : Source) : Invariant where
  source := Source.Stacked base

theorem stacking_kept (base : Source) : (stacking base).Kept where
  toKeptByNodes := ⟨fun _ _ => trivial, fun _ _ => trivial, fun _ => trivial, fun _ _ => trivial⟩
  toKeptByOptions := .of_all fun _ => trivial
  toKeptBySources := {
    index := by
      intro n s text overrides _ hs length
      unfold Source.index
      split
      · exact hs
      · exact hs.draw
    integer := fun _ hs => hs.draw
    record := fun hs => hs.record
    rewind := fun hs => hs.rewind
    finish := fun hs => hs.finish }
  toKeptByEvents := .of_all fun _ => trivial

/-- A node drops all the tapes that it starts. -/
theorem realize_stacked (node : Node) (context : Context) (source : Source) :
    source.Stacked 0 (realize node context source).source := by
  have hall : ∀ node, (stacking source).Admits node := Node.everywhere_of_all fun _ => trivial
  have hrun := realize_maintains (stacking_kept source) 0 node context source (hall node)
    ⟨trivial, trivial, fun entry _ => hall entry.2⟩ (.start source)
  exact hrun.source

/-- No draw is taken when the node is run. -/
def Node.DrawsNothing (node : Node) (context : Context) (source : Source) : Prop :=
  (realize node context source).source.taken = source.taken

variable {context : Context} {source : Source}

theorem Node.DrawsNothing.source_eq {node : Node} (h : node.DrawsNothing context source) :
    (realize node context source).source = source :=
  (realize_stacked node context source).eq_of_taken_eq h

/-! ### A bracket among other nodes -/

theorem evaluate_one (node : Node) (context : Context) (source : Source) :
    (evaluate [node] context source).context = (realize node context source).context ∧
      (evaluate [node] context source).source = (realize node context source).source := by
  unfold evaluate
  simp only [Realizer.inOrder, Run.withResult, Run.withTree, Run.andThen]
  cases (realize node context source).result with
  | error failure => exact ⟨rfl, rfl⟩
  | ok steps => exact ⟨rfl, rfl⟩

/-- What stands behind a bracket that draws nothing goes on as if the bracket
    were not there. -/
theorem evaluate_bracket_cons {bracket : Node} {future : List Node} {events : List Event}
    (hbracket : bracket.isBracket = true) (hquiet : bracket.DrawsNothing context source)
    (h : (evaluate (bracket :: future) context source).result = .ok events) :
    ∃ inside after, (evaluate [bracket] context source).result = .ok inside ∧
      (evaluate future context source).result = .ok after ∧ events = inside ++ after ∧
      (evaluate (bracket :: future) context source).context = (evaluate future context source).context ∧
      (evaluate (bracket :: future) context source).source = (evaluate future context source).source := by
  obtain ⟨hcontext, hsource⟩ := evaluate_one bracket context source
  rw [realize_bracket_context hbracket] at hcontext
  rw [hquiet.source_eq] at hsource
  have hsplit : bracket :: future = [bracket] ++ future := rfl
  obtain ⟨inside, hinside⟩ := evaluate_of_append_ok (hsplit ▸ h)
  have hall := evaluate_append hinside future
  simp only [hcontext, hsource, ← hsplit] at hall
  rw [hall] at h ⊢
  obtain ⟨after, hafter, rfl⟩ := map_eq_ok.mp h
  exact ⟨inside, after, hinside, hafter, rfl, rfl, rfl⟩

/-- **Brackets isolate what is inside them.**  Of two brackets that draw
    nothing, either can stand between the same nodes: what these yield, before
    the bracket and behind it, is the same, and so are the context and the
    source that are left. -/
theorem brackets_isolate {past future : List Node} {one other : Node} {ones others : List Event}
    (hone : one.isBracket = true) (hother : other.isBracket = true)
    (hquiet : one.DrawsNothing (evaluate past context source).context (evaluate past context source).source)
    (hquiet' : other.DrawsNothing (evaluate past context source).context (evaluate past context source).source)
    (hones : (evaluate (past ++ one :: future) context source).result = .ok ones)
    (hothers : (evaluate (past ++ other :: future) context source).result = .ok others) :
    let reached := evaluate past context source
    ∃ before inside inside' after, reached.result = .ok before ∧
      (evaluate future reached.context reached.source).result = .ok after ∧
      (evaluate [one] reached.context reached.source).result = .ok inside ∧
      (evaluate [other] reached.context reached.source).result = .ok inside' ∧
      ones = before ++ inside ++ after ∧ others = before ++ inside' ++ after ∧
      (evaluate (past ++ one :: future) context source).context =
        (evaluate (past ++ other :: future) context source).context ∧
      (evaluate (past ++ one :: future) context source).source =
        (evaluate (past ++ other :: future) context source).source := by
  intro reached
  obtain ⟨before, hbefore⟩ := evaluate_of_append_ok hones
  rw [evaluate_append hbefore] at hones hothers ⊢
  rw [evaluate_append hbefore]
  obtain ⟨rest, hrest, rfl⟩ := map_eq_ok.mp hones
  obtain ⟨rest', hrest', rfl⟩ := map_eq_ok.mp hothers
  obtain ⟨inside, after, hinside, hafter, rfl, hcontext, hsource⟩ := evaluate_bracket_cons hone hquiet hrest
  obtain ⟨inside', after', hinside', hafter', rfl, hcontext', hsource'⟩ := evaluate_bracket_cons hother hquiet' hrest'
  -- both runs go on from the same context and the same source
  obtain rfl : after = after' := Except.ok.inj (hafter.symm.trans hafter')
  refine ⟨before, inside, inside', after, hbefore, hafter, hinside, hinside', ?_, ?_, ?_, ?_⟩
  · exact (List.append_assoc before inside after).symm
  · exact (List.append_assoc before inside' after).symm
  · exact hcontext.trans hcontext'.symm
  · exact hsource.trans hsource'.symm

/-- A list and a repeated subdivision between uses of a variable.  Both assign
    the variable, pass a bar and change the octave inside. -/
theorem list_and_repeat_isolate :
    let degree (n : Int) : Node := .event (.pitch (.ofDegree n))
    let past : List Node := [.assignment "A=2" "A" false (degree 2), .change "^" (.octaveAdd 1), .variable "A" "A"]
    let one : Node := .sequence "(| A=9 _ 4)" {} true
      [.bar "|", .assignment "A=9" "A" false (degree 9), .change "_" (.octaveAdd (-1)), degree 4]
    let other : Node := .repetition "[:[1 A~3 ^ A | 5]:2]" true
      [.subdivision "[1 A~3 ^ A | 5]" {}
        [degree 1, .assignment "A~3" "A" true (degree 3), .change "^" (.octaveAdd 1), .variable "A" "A", .bar "|",
          degree 5]] (.integer "2" 2)
    let future : List Node := [.variable "A" "A", .bar "|", degree 6]
    ∃ ones others before inside inside' after,
      (evaluate (past ++ one :: future) (.ofOptions {}) (.ofSeed 0)).result = .ok ones ∧
      (evaluate (past ++ other :: future) (.ofOptions {}) (.ofSeed 0)).result = .ok others ∧
      ones = before ++ inside ++ after ∧ others = before ++ inside' ++ after ∧
      ones.length = 4 ∧ others.length = 9 := by
  intro degree past one other future
  have hcheck : (evaluate (past ++ one :: future) (.ofOptions {}) (.ofSeed 0)).result.toOption.any (·.length = 4) =
      true := by decide +kernel
  have hcheck' : (evaluate (past ++ other :: future) (.ofOptions {}) (.ofSeed 0)).result.toOption.any
      (·.length = 9) = true := by decide +kernel
  have hone : one.isBracket = true := rfl
  have hother : other.isBracket = true := rfl
  have hquiet : one.DrawsNothing (evaluate past (.ofOptions {}) (.ofSeed 0)).context
      (evaluate past (.ofOptions {}) (.ofSeed 0)).source := by
    unfold Node.DrawsNothing
    decide +kernel
  have hquiet' : other.DrawsNothing (evaluate past (.ofOptions {}) (.ofSeed 0)).context
      (evaluate past (.ofOptions {}) (.ofSeed 0)).source := by
    unfold Node.DrawsNothing
    decide +kernel
  obtain ⟨ones, hones, hlength⟩ := eq_ok_of_any hcheck
  obtain ⟨others, hothers, hlength'⟩ := eq_ok_of_any hcheck'
  obtain ⟨before, inside, inside', after, -, -, -, -, heq, heq', -⟩ :=
    brackets_isolate hone hother hquiet hquiet' hones hothers
  exact ⟨ones, others, before, inside, inside', after, hones, hothers, heq, heq', by simpa using hlength,
    by simpa using hlength'⟩

end NumberedMelody
