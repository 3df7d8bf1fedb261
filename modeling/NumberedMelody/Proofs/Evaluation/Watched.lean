/-
  NumberedMelody/Proofs/Evaluation/Watched.lean
  =============================================
  **Evaluation under watch.**  Evaluation again, with a log of the paths in the
  tree whose nodes are run, in the order in which they are.  The log is written
  where a node is handed to the realizer: a visit of the node, and then the
  visits inside it.  Without the log it is evaluation (`run_watchAll`).

  Interleaving runs copies of the elements of its two lists, and a use of a
  variable runs a copy of the stored node.  Nothing is logged of copies: they
  are not in the tree.
-/
import NumberedMelody.Proofs.Evaluation.Visits
import NumberedMelody.Proofs.Tree.Layout

namespace NumberedMelody

open NumberedMelody.Random (Source)

/-! ### Runs and logs -/

/-- A run with the paths that were visited on the way. -/
structure Watched (σ ρ : Type) where
  run : Run σ ρ
  visits : List Path

namespace Watched

variable {σ σ' ρ ρ' : Type}

/-- A run of which nothing is logged. -/
def unwatched (run : Run σ ρ) : Watched σ ρ := ⟨run, []⟩

/-- The same log for what is made of the run. -/
def alter (watched : Watched σ ρ) (f : Run σ ρ → Run σ' ρ') : Watched σ' ρ' := ⟨f watched.run, watched.visits⟩

/-- The run of the node on a branch: a visit of the node, and what was visited inside. -/
def under (watched : Watched σ ρ) (branch : Branch) : Watched σ ρ :=
  ⟨watched.run, [branch] :: watched.visits.map (branch :: ·)⟩

def andThen (first : Watched σ ρ) (untouched : σ') (next : ρ → Context → Source → Watched σ' ρ') :
    Watched (σ × σ') ρ' :=
  match first.run.result with
  | .error failure =>
    ⟨⟨(first.run.tree, untouched), first.run.context, first.run.source, .error failure⟩, first.visits⟩
  | .ok value =>
    let second := next value first.run.context first.run.source
    ⟨second.run.withTree fun tree => (first.run.tree, tree), first.visits ++ second.visits⟩

def onward (first : Watched σ ρ) (next : Run σ ρ → ρ → Watched σ ρ) : Watched σ ρ :=
  match first.run.result with
  | .error _ => first
  | .ok value =>
    let second := next first.run value
    ⟨second.run, first.visits ++ second.visits⟩

@[simp] theorem run_unwatched (run : Run σ ρ) : (unwatched run).run = run := rfl

@[simp] theorem run_alter (watched : Watched σ ρ) (f : Run σ ρ → Run σ' ρ') : (watched.alter f).run = f watched.run :=
  rfl

@[simp] theorem run_under (watched : Watched σ ρ) (branch : Branch) : (watched.under branch).run = watched.run := rfl

@[simp] theorem run_andThen (first : Watched σ ρ) (untouched : σ') (next : ρ → Context → Source → Watched σ' ρ') :
    (first.andThen untouched next).run =
      first.run.andThen untouched fun value context source => (next value context source).run := by
  unfold andThen Run.andThen
  cases first.run.result <;> rfl

@[simp] theorem run_onward (first : Watched σ ρ) (next : Run σ ρ → ρ → Watched σ ρ) :
    (first.onward next).run = first.run.onward fun run value => (next run value).run := by
  unfold onward Run.onward
  cases first.run.result <;> rfl

end Watched

/-! ### The rules of evaluation, watched -/

/-- How a node is run under watch. -/
abbrev Watcher := Node → Context → Source → Watched Node (List Step)

namespace Watcher

open Watched

variable (watch : Watcher)

/-- The realizer that is watched. -/
def plain : Realizer := fun node context source => (watch node context source).run

/-- Nodes in order, on branches counted from a number on. -/
def inOrder (slot : Slot) : Nat → List Node → Context → Source → Watched (List Node) (List Step)
  | _, [], context, source => unwatched ⟨[], context, source, .ok []⟩
  | i, node :: more, context, source =>
    (((watch node context source).under ⟨slot, i⟩).andThen more fun steps context source =>
        (inOrder slot (i + 1) more context source).alter (·.withResult fun others => .ok (steps ++ others))).alter
      (·.withTree fun (node, more) => node :: more)

def events (branch : Branch) (node : Node) (context : Context) (source : Source) : Watched Node (List Event) :=
  ((watch node context source).under branch).alter fun run => (run.withResult assignDurations).back context

/-- A number that stands there itself is no visit. -/
def number (node : Node) (context : Context) (source : Source) : Watched Node Int :=
  match node with
  | .integer text value => unwatched ⟨.integer text value, context, source, .ok value⟩
  | node =>
    ((watch node context source).under ⟨.count, 0⟩).alter fun run =>
      (run.withResult fun steps =>
        match steps.findSome? Step.pitch? with
        | some pitch => .ok pitch.degree
        | none => .error (.noNumber node.text)).back context

def passes (prepare : Source → Source) (context : Context) :
    Nat → List Node → Source → Watched (List Node) (List Step)
  | 0, nodes, source => unwatched ⟨nodes, context, source, .ok []⟩
  | n + 1, nodes, source =>
    ((inOrder watch .value 0 nodes context (prepare source)).alter (·.back context)).onward fun pass steps =>
      (passes prepare context n pass.tree pass.source).alter (·.withResult fun others => .ok (steps ++ others))

def repeated (prepare : Source → Source) (times : Nat) (nodes : List Node) (context : Context) (source : Source) :
    Watched (List Node) (List Step) :=
  match times with
  | 0 => unwatched ⟨nodes, context, source, .ok []⟩
  | n + 1 =>
    (passes watch id context 1 nodes source).onward fun pass steps =>
      (passes watch prepare context n pass.tree pass.source).alter (·.withResult fun others => .ok (steps ++ others))

def repetition (text : String) (replayed : Bool) (values : List Node) (count : Node) (context : Context)
    (source : Source) : Watched Node (List Step) :=
  ((number watch count context source).andThen values fun times context source =>
      if times ≤ 0 then unwatched ⟨values, context, source, .ok []⟩
      else if replayed then
        (repeated watch Source.rewind times.toNat values context source.record).alter fun run =>
          { run with source := run.source.finish }
      else repeated watch id times.toNat values context source).alter
    (·.withTree fun (count, values) => .repetition text replayed values count)

def operand (i : Nat) (right : Option Node) (context : Context) (source : Source) :
    Watched (Option Node) (List Event) :=
  match right with
  | none => unwatched ⟨none, context, source, .ok []⟩
  | some node => (events watch ⟨.operand, i⟩ node context source).alter (·.withTree some)

def operation (i : Nat) (left : List Event) (step : Operation Node) (context : Context) (source : Source) :
    Watched (Operation Node) (List Event) :=
  match step with
  | .map expr => unwatched ⟨.map expr, context, source, ListArithmetic.mapEvents expr context.options left⟩
  | .binary .zip right =>
    unwatched ((Realizer.zipped watch.plain (left.map .event) right context source).withTree fun _ =>
      .binary .zip right)
  | .binary .vertical right =>
    (operand watch i right context source).alter fun run =>
      (run.withTree (Operation.binary .vertical)).withResult
        fun indices => .ok (ListArithmetic.vertical left indices)
  | .binary .horizontal right =>
    (operand watch i right context source).alter fun run =>
      (run.withTree (Operation.binary .horizontal)).withResult
        fun indices => .ok (ListArithmetic.horizontal left indices)
  | .binary (.arithmetic op) right =>
    (operand watch i right context source).alter fun run =>
      (run.withTree (Operation.binary (.arithmetic op))).withResult
        fun rights => ListArithmetic.combine op context.options left rights

def operationsOn : Nat → List Event → List (Operation Node) → Context → Source →
    Watched (List (Operation Node)) (List Event)
  | _, left, [], context, source => unwatched ⟨[], context, source, .ok left⟩
  | i, left, step :: more, context, source =>
    ((operation watch i left step context source).andThen more fun events context source =>
        operationsOn (i + 1) events more context source).alter
      (·.withTree fun (step, more) => step :: more)

def operations (text : String) (left : Node) (steps : List (Operation Node)) (context : Context)
    (source : Source) : Watched Node (List Step) :=
  let watched : Watched Node (List Event) :=
    match steps with
    | .binary .zip right :: more =>
      ((unwatched (Realizer.zipped watch.plain left.elements right context source)).andThen more
          fun events context source => operationsOn watch 1 events more context source).alter
        (·.withTree fun (_, more) => .operations text left (.binary .zip right :: more))
    | steps =>
      ((events watch ⟨.left, 0⟩ left context source).andThen steps fun events context source =>
          operationsOn watch 0 events steps context source).alter
        (·.withTree fun (left, steps) => .operations text left steps)
  watched.alter (·.withResult fun events => .ok (events.map .ready))

def deal (slot : Slot) (deck : Realizer.Deck) (source : Source) : Watched Realizer.Deck (List Step) :=
  let place := deck.dealt % deck.elements.length
  match deck.elements[place]? with
  | none => unwatched ⟨deck, deck.context, source, .ok []⟩
  | some element =>
    ((watch element deck.context source).under ⟨slot, place⟩).alter fun run =>
      run.withTree fun element => ⟨deck.elements.set place element, deck.dealt + 1, run.context⟩

def beat (silence : Step) (hit : Bool) (on off : Realizer.Deck) (source : Source) :
    Watched (Realizer.Deck × Realizer.Deck) (List Step) :=
  if hit then (deal watch .onset on source).alter (·.withTree (·, off))
  else if off.elements.isEmpty then unwatched ⟨(on, off), on.context, source, .ok [silence]⟩
  else (deal watch .offset off source).alter (·.withTree (on, ·))

def dealt (silence : Step) : List Bool → Realizer.Deck → Realizer.Deck → Source →
    Watched (Realizer.Deck × Realizer.Deck) (List Step)
  | [], on, off, source => unwatched ⟨(on, off), on.context, source, .ok []⟩
  | hit :: more, on, off, source =>
    (beat watch silence hit on off source).onward fun run steps =>
      (dealt silence more run.tree.1 run.tree.2 run.source).alter (·.withResult fun others => .ok (steps ++ others))

def euclid (text : String) (pulses length : Nat) (rotate : Int) (onset : Node) (offset : Option Node)
    (context : Context) (source : Source) : Watched Node (List Step) :=
  if onset.elements.isEmpty then
    unwatched ⟨.euclid text pulses length rotate onset offset, context, source, .error (.noOnset text)⟩
  else
    let silence := Step.ready (.rest { text := "r", duration := some context.options.duration })
    let on := Realizer.Deck.ofList onset context
    let off := (offset.map (Realizer.Deck.ofList · context)).getD ⟨[], 0, context⟩
    (dealt watch silence (Rhythm.euclidean pulses length rotate) on off source).alter fun run =>
      (run.back context).withTree fun (on, off) =>
        .euclid text pulses length rotate (Realizer.withElements onset on.elements)
          (offset.map (Realizer.withElements · off.elements))

def visit (text : String) (values : List Node) (visits : Nat) (context : Context) (source : Source) :
    Watched Node (List Step) :=
  let place := visits % values.length
  match values[place]? with
  | none => unwatched ⟨.cycle text values visits, context, source, .ok []⟩
  | some value =>
    ((watch value context source).under ⟨.value, place⟩).alter
      (·.withTree fun value => .cycle text (values.set place value) (visits + 1))

def assignment (text name : String) (eager : Bool) (value : Node) (context : Context) (source : Source) :
    Watched Node (List Step) :=
  if eager then
    (events watch ⟨.stored, 0⟩ value context source).alter fun run =>
      match run.result with
      | .error failure => ⟨.assignment text name eager run.tree, context, run.source, .error failure⟩
      | .ok played =>
        let stored := Node.sequence value.text {} true (played.map .event)
        ⟨.assignment text name eager run.tree, context.assign name stored, run.source, .ok []⟩
  else unwatched ⟨.assignment text name eager value, context.assign name value, source, .ok []⟩

/-- One node, with a watcher for the nodes inside it; stored values are copies. -/
def level (inner : Watcher) (stored : Realizer) : Watcher := fun node context source =>
  match node with
  | .sequence text overrides isList values =>
    (inOrder inner .value 0 values (context.inside overrides) source).alter fun run =>
      (run.back context).withTree (.sequence text overrides isList)
  | .cycle text values visits => visit inner text values visits context source
  | .subdivision text overrides values =>
    let scope := context.inside overrides
    (inOrder inner .value 0 values scope source).alter fun run =>
      ((run.withResult fun steps => .ok [.subdivided scope.options.duration steps]).back context).withTree
        (.subdivision text overrides)
  | .repetition text replayed values count => repetition inner text replayed values count context source
  | .operations text left steps => operations inner text left steps context source
  | .euclid text pulses length rotate onset offset =>
    euclid inner text pulses length rotate onset offset context source
  | .assignment text name eager value => assignment inner text name eager value context source
  | node => unwatched (Realizer.level inner.plain stored node context source)

def toDepth (stored : Realizer) : Nat → Watcher
  | 0 => fun node context source => unwatched (Realizer.exhausted node context source)
  | depth + 1 => level (toDepth stored depth) stored

end Watcher

/-- Run a node under watch. -/
def watch : Watcher := fun node => Watcher.toDepth (Realizer.nested (nestingLimit - 1)) node.depth node

/-- Evaluate nodes in order under watch. -/
def watchAll (nodes : List Node) (context : Context) (source : Source) : Watched (List Node) (List Event) :=
  (Watcher.inOrder watch .value 0 nodes context source).alter (·.withResult assignDurations)

/-! ### Without the log -/

namespace Watcher

open Watched

variable (watch : Watcher)

theorem run_inOrder (slot : Slot) (nodes : List Node) :
    ∀ (i : Nat) (context : Context) (source : Source),
      (inOrder watch slot i nodes context source).run = Realizer.inOrder watch.plain nodes context source := by
  induction nodes with
  | nil =>
    intro i context source
    rfl
  | cons node more ih =>
    intro i context source
    simp only [inOrder, Realizer.inOrder, run_alter, run_andThen, run_under, ih, plain]

theorem run_events (branch : Branch) (node : Node) (context : Context) (source : Source) :
    (events watch branch node context source).run = Realizer.events watch.plain node context source := rfl

theorem run_number (node : Node) (context : Context) (source : Source) :
    (number watch node context source).run = Realizer.number watch.plain node context source := by
  cases node <;> rfl

theorem run_passes (prepare : Source → Source) (context : Context) (times : Nat) :
    ∀ (nodes : List Node) (source : Source),
      (passes watch prepare context times nodes source).run =
        Realizer.passes watch.plain prepare context times nodes source := by
  induction times with
  | zero =>
    intro nodes source
    rfl
  | succ times ih =>
    intro nodes source
    simp only [passes, Realizer.passes_succ, run_onward, run_alter, run_inOrder, ih]

theorem run_repeated (prepare : Source → Source) (times : Nat) (nodes : List Node) (context : Context)
    (source : Source) :
    (repeated watch prepare times nodes context source).run =
      Realizer.repeated watch.plain prepare times nodes context source := by
  cases times with
  | zero => rfl
  | succ times => simp only [repeated, Realizer.repeated_succ, run_onward, run_alter, run_passes]

theorem run_repetition (text : String) (replayed : Bool) (values : List Node) (count : Node) (context : Context)
    (source : Source) :
    (repetition watch text replayed values count context source).run =
      Realizer.repetition watch.plain text replayed values count context source := by
  simp only [repetition, Realizer.repetition, run_alter, run_andThen, run_number]
  congr 2
  funext times context source
  by_cases htimes : times ≤ 0
  · simp only [if_pos htimes, run_unwatched]
  · cases replayed with
    | false => simp only [if_neg htimes, Bool.false_eq_true, if_false, run_repeated]
    | true => simp only [if_neg htimes, if_true, run_alter, run_repeated]

theorem run_operand (i : Nat) (right : Option Node) (context : Context) (source : Source) :
    (operand watch i right context source).run = Realizer.operand watch.plain right context source := by
  cases right <;> rfl

theorem run_operation (i : Nat) (left : List Event) (step : Operation Node) (context : Context) (source : Source) :
    (operation watch i left step context source).run =
      Realizer.operation watch.plain left step context source := by
  cases step with
  | map expr => rfl
  | binary op right => cases op <;> simp only [operation, Realizer.operation, run_unwatched, run_alter, run_operand]

theorem run_operationsOn (steps : List (Operation Node)) :
    ∀ (i : Nat) (left : List Event) (context : Context) (source : Source),
      (operationsOn watch i left steps context source).run =
        Realizer.operationsOn watch.plain left steps context source := by
  induction steps with
  | nil =>
    intro i left context source
    rfl
  | cons step more ih =>
    intro i left context source
    simp only [operationsOn, Realizer.operationsOn, run_alter, run_andThen, run_operation, ih]

theorem run_operations (text : String) (left : Node) (steps : List (Operation Node)) (context : Context)
    (source : Source) :
    (operations watch text left steps context source).run =
      Realizer.operations watch.plain text left steps context source := by
  have hothers := congrArg (fun run : Run (Node × List (Operation Node)) (List Event) =>
    (run.withTree fun (left, steps) => Node.operations text left steps).withResult fun events => .ok (events.map Step.ready))
    (run_andThen (events watch ⟨.left, 0⟩ left context source) steps fun events context source =>
      operationsOn watch 0 events steps context source)
  simp only [run_operationsOn] at hothers
  cases steps with
  | nil => exact hothers
  | cons step more =>
    cases step with
    | map expr => exact hothers
    | binary op right =>
      cases op with
      | zip =>
        simp only [operations, Realizer.operations, run_alter, run_andThen, run_unwatched, run_operationsOn]
      | _ => exact hothers

theorem run_deal (slot : Slot) (deck : Realizer.Deck) (source : Source) :
    (deal watch slot deck source).run = Realizer.Deck.deal watch.plain deck source := by
  simp only [deal, Realizer.Deck.deal]
  cases deck.elements[deck.dealt % deck.elements.length]? <;> rfl

theorem run_beat (silence : Step) (hit : Bool) (on off : Realizer.Deck) (source : Source) :
    (beat watch silence hit on off source).run = Realizer.beat watch.plain silence hit on off source := by
  unfold beat Realizer.beat
  cases hit with
  | true => simp only [if_true, run_alter, run_deal]
  | false =>
    by_cases hempty : off.elements.isEmpty
    · simp only [Bool.false_eq_true, if_false, if_pos hempty, run_unwatched]
    · simp only [Bool.false_eq_true, if_false, if_neg hempty, run_alter, run_deal]

theorem run_dealt (silence : Step) (rhythm : List Bool) :
    ∀ (on off : Realizer.Deck) (source : Source),
      (dealt watch silence rhythm on off source).run =
        Realizer.dealt watch.plain silence rhythm on off source := by
  induction rhythm with
  | nil =>
    intro on off source
    rfl
  | cons hit more ih =>
    intro on off source
    simp only [dealt, Realizer.dealt_cons, run_onward, run_alter, run_beat, ih]

theorem run_euclid (text : String) (pulses length : Nat) (rotate : Int) (onset : Node) (offset : Option Node)
    (context : Context) (source : Source) :
    (euclid watch text pulses length rotate onset offset context source).run =
      Realizer.euclid watch.plain text pulses length rotate onset offset context source := by
  unfold euclid Realizer.euclid
  by_cases hempty : onset.elements.isEmpty
  · simp only [if_pos hempty, run_unwatched]
  · simp only [if_neg hempty, run_alter, run_dealt]

theorem run_visit (text : String) (values : List Node) (visits : Nat) (context : Context) (source : Source) :
    (visit watch text values visits context source).run =
      Realizer.visit watch.plain text values visits context source := by
  simp only [visit, Realizer.visit]
  cases values[visits % values.length]? <;> rfl

theorem run_assignment (text name : String) (eager : Bool) (value : Node) (context : Context) (source : Source) :
    (assignment watch text name eager value context source).run =
      Realizer.assignment watch.plain text name eager value context source := by
  unfold assignment Realizer.assignment
  cases eager with
  | false => rfl
  | true =>
    cases hresult : (Realizer.events watch.plain value context source).result <;>
      simp only [if_true, run_alter, run_events, hresult]

theorem plain_level (inner : Watcher) (stored : Realizer) :
    (level inner stored).plain = Realizer.level inner.plain stored := by
  funext node context source
  cases node with
  | sequence text overrides isList values => simp only [plain, level, Realizer.level, run_alter, run_inOrder]
  | cycle text values visits => exact run_visit inner text values visits context source
  | subdivision text overrides values => simp only [plain, level, Realizer.level, run_alter, run_inOrder]
  | repetition text replayed values count => exact run_repetition inner text replayed values count context source
  | operations text left steps => exact run_operations inner text left steps context source
  | euclid text pulses length rotate onset offset =>
    exact run_euclid inner text pulses length rotate onset offset context source
  | assignment text name eager value => exact run_assignment inner text name eager value context source
  | _ => rfl

theorem plain_toDepth (stored : Realizer) (depth : Nat) : (toDepth stored depth).plain = Realizer.toDepth stored depth := by
  induction depth with
  | zero => rfl
  | succ depth ih => rw [toDepth, plain_level, ih, Realizer.toDepth]

end Watcher

theorem plain_watch : watch.plain = realize := by
  funext node
  show (Watcher.toDepth (Realizer.nested (nestingLimit - 1)) node.depth).plain node = _
  rw [Watcher.plain_toDepth]
  rfl

/-- **Without the log it is evaluation.** -/
theorem run_watchAll (nodes : List Node) (context : Context) (source : Source) :
    (watchAll nodes context source).run = evaluate nodes context source := by
  simp only [watchAll, Watched.run_alter, Watcher.run_inOrder, plain_watch, evaluate]

end NumberedMelody
