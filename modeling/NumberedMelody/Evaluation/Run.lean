/-
  NumberedMelody/Evaluation/Run.lean
  ==================================
  **Runs.**  A run of the evaluator yields something or fails; either way it
  leaves behind a tree with its cycles advanced and chords kept by its numerals,
  a context, and a random source.  The ways of running nodes inside another node
  are written here over a realizer for those nodes, without saying how it works.
-/
import NumberedMelody.Evaluation.Context
import NumberedMelody.Evaluation.ListArithmetic
import NumberedMelody.Evaluation.Step
import NumberedMelody.Random.Source
import NumberedMelody.Rhythm.Euclidean

namespace NumberedMelody

open NumberedMelody.Random (Source)

/-- What a run over a tree `σ` leaves behind and yields. -/
structure Run (σ ρ : Type) where
  tree : σ
  context : Context
  source : Source
  result : Except Failure ρ

namespace Run

variable {σ σ' ρ ρ' : Type}

def withTree (run : Run σ ρ) (f : σ → σ') : Run σ' ρ :=
  ⟨f run.tree, run.context, run.source, run.result⟩

def withResult (run : Run σ ρ) (f : ρ → Except Failure ρ') : Run σ ρ' :=
  ⟨run.tree, run.context, run.source, run.result.bind f⟩

/-- The same run back in a context. -/
def back (run : Run σ ρ) (context : Context) : Run σ ρ := { run with context }

/-- Go on after a run that yields, in the context and with the source that it
    leaves.  What is run next has its own tree, which stays as it is if the
    first run fails. -/
def andThen (first : Run σ ρ) (untouched : σ') (next : ρ → Context → Source → Run σ' ρ') :
    Run (σ × σ') ρ' :=
  match first.result with
  | .error failure => ⟨(first.tree, untouched), first.context, first.source, .error failure⟩
  | .ok value =>
    let second := next value first.context first.source
    second.withTree fun tree => (first.tree, tree)

end Run

/-- How a node is run. -/
abbrev Realizer := Node → Context → Source → Run Node (List Step)

namespace Realizer

variable (realize : Realizer)

/-- Nodes in order, each in the context that the one before left. -/
def inOrder : List Node → Context → Source → Run (List Node) (List Step)
  | [], context, source => ⟨[], context, source, .ok []⟩
  | node :: more, context, source =>
    ((realize node context source).andThen more fun steps context source =>
        (inOrder more context source).withResult fun others => .ok (steps ++ others)).withTree
      fun (node, more) => node :: more

/-- The events of one node, in a copy of the context. -/
def events (node : Node) (context : Context) (source : Source) : Run Node (List Event) :=
  ((realize node context source).withResult assignDurations).back context

/-- The events of nodes in order, in a copy of the context. -/
def eventsInOrder (nodes : List Node) (context : Context) (source : Source) : Run (List Node) (List Event) :=
  ((inOrder realize nodes context source).withResult assignDurations).back context

/-! ### Numbers and repeats -/

/-- The number that a node stands for: an integer itself, or the degree of the
    first pitch that the node yields in a copy of the context. -/
def number (node : Node) (context : Context) (source : Source) : Run Node Int :=
  match node with
  | .integer text value => ⟨.integer text value, context, source, .ok value⟩
  | node =>
    ((realize node context source).withResult fun steps =>
        match steps.findSome? Step.pitch? with
        | some pitch => .ok pitch.degree
        | none => .error (.noNumber node.text)).back context

/-- Further passes over nodes, each in a copy of the context; the source is
    prepared before each. -/
def passes (prepare : Source → Source) (context : Context) :
    Nat → List Node → Source → Run (List Node) (List Step)
  | 0, nodes, source => ⟨nodes, context, source, .ok []⟩
  | n + 1, nodes, source =>
    let pass := (inOrder realize nodes context (prepare source)).back context
    match pass.result with
    | .error _ => pass
    | .ok steps =>
      (passes prepare context n pass.tree pass.source).withResult fun others => .ok (steps ++ others)

/-- Nodes so many times; the source is prepared before every pass but the first. -/
def repeated (prepare : Source → Source) (times : Nat) (nodes : List Node) (context : Context)
    (source : Source) : Run (List Node) (List Step) :=
  match times with
  | 0 => ⟨nodes, context, source, .ok []⟩
  | n + 1 =>
    let pass := passes realize id context 1 nodes source
    match pass.result with
    | .error _ => pass
    | .ok steps =>
      (passes realize prepare context n pass.tree pass.source).withResult fun others => .ok (steps ++ others)

/-- A repeat.  A replayed one records the draws of its first pass on a tape and
    plays them back on the others. -/
def repetition (text : String) (replayed : Bool) (values : List Node) (count : Node) (context : Context)
    (source : Source) : Run Node (List Step) :=
  let counted := number realize count context source
  let body : Run (Node × List Node) (List Step) :=
    counted.andThen values fun times context source =>
      if times ≤ 0 then ⟨values, context, source, .ok []⟩
      else if replayed then
        let run := repeated realize Source.rewind times.toNat values context source.record
        { run with source := run.source.finish }
      else repeated realize id times.toNat values context source
  body.withTree fun (count, values) => .repetition text replayed values count

/-! ### List operations -/

/-- The elements of two lists interleaved and run; the lists themselves are not touched. -/
def zipped (left : List Node) (right : Option Node) (context : Context) (source : Source) :
    Run Unit (List Event) :=
  let nodes := ListArithmetic.interleave left ((right.map Node.elements).getD [])
  (eventsInOrder realize nodes context source).withTree fun _ => ()

/-- The events of an operand; none without one. -/
def operand (right : Option Node) (context : Context) (source : Source) : Run (Option Node) (List Event) :=
  match right with
  | none => ⟨none, context, source, .ok []⟩
  | some node => (events realize node context source).withTree some

def operation (left : List Event) (step : Operation Node) (context : Context) (source : Source) :
    Run (Operation Node) (List Event) :=
  match step with
  | .map expr =>
    ⟨.map expr, context, source, ListArithmetic.mapEvents expr context.options left⟩
  | .binary .zip right =>
    (zipped realize (left.map .event) right context source).withTree fun _ => .binary .zip right
  | .binary .vertical right =>
    ((operand realize right context source).withTree (Operation.binary .vertical)).withResult
      fun indices => .ok (ListArithmetic.vertical left indices)
  | .binary .horizontal right =>
    ((operand realize right context source).withTree (Operation.binary .horizontal)).withResult
      fun indices => .ok (ListArithmetic.horizontal left indices)
  | .binary (.arithmetic op) right =>
    ((operand realize right context source).withTree (Operation.binary (.arithmetic op))).withResult
      fun rights => ListArithmetic.combine op context.options left rights

/-- Operations on events, from left to right. -/
def operationsOn (left : List Event) :
    List (Operation Node) → Context → Source → Run (List (Operation Node)) (List Event)
  | [], context, source => ⟨[], context, source, .ok left⟩
  | step :: more, context, source =>
    ((operation realize left step context source).andThen more fun events context source =>
        operationsOn events more context source).withTree
      fun (step, more) => step :: more

/-- A list and operations on it.  Interleaving takes the elements of the list
    as they are written; every other operation takes its events. -/
def operations (text : String) (left : Node) (steps : List (Operation Node)) (context : Context)
    (source : Source) : Run Node (List Step) :=
  let run : Run Node (List Event) :=
    match steps with
    | .binary .zip right :: more =>
      ((zipped realize left.elements right context source).andThen more fun events context source =>
          operationsOn realize events more context source).withTree
        fun (_, more) => .operations text left (.binary .zip right :: more)
    | steps =>
      ((events realize left context source).andThen steps fun events context source =>
          operationsOn realize events steps context source).withTree
        fun (left, steps) => .operations text left steps
  run.withResult fun events => .ok (events.map .ready)

/-! ### Dealing lists out -/

/-- A list that is dealt out in turn, over and over, in a scope of its own. -/
structure Deck where
  elements : List Node
  dealt : Nat
  context : Context

def Deck.ofList (node : Node) (context : Context) : Deck :=
  ⟨node.elements, 0, context.inside node.listOverrides⟩

/-- Run the element whose turn it is. -/
def Deck.deal (deck : Deck) (source : Source) : Run Deck (List Step) :=
  let place := deck.dealt % deck.elements.length
  match deck.elements[place]? with
  | none => ⟨deck, deck.context, source, .ok []⟩
  | some element =>
    let run := realize element deck.context source
    run.withTree fun element => ⟨deck.elements.set place element, deck.dealt + 1, run.context⟩

/-- Deal two decks out over a rhythm.  An empty second deck deals silences. -/
def dealt (silence : Step) : List Bool → Deck → Deck → Source → Run (Deck × Deck) (List Step)
  | [], on, off, source => ⟨(on, off), on.context, source, .ok []⟩
  | hit :: more, on, off, source =>
    let run : Run (Deck × Deck) (List Step) :=
      if hit then (Deck.deal realize on source).withTree (·, off)
      else if off.elements.isEmpty then ⟨(on, off), on.context, source, .ok [silence]⟩
      else (Deck.deal realize off source).withTree (on, ·)
    match run.result with
    | .error _ => run
    | .ok steps =>
      (dealt silence more run.tree.1 run.tree.2 run.source).withResult fun others => .ok (steps ++ others)

/-- Put elements back among the blanks of a list. -/
def refill : List Node → List Node → List Node
  | [], _ => []
  | value :: values, elements =>
    if value.isBlank then value :: refill values elements
    else
      match elements with
      | [] => value :: refill values []
      | element :: elements => element :: refill values elements

/-- A list node with its elements replaced. -/
def withElements (node : Node) (elements : List Node) : Node :=
  match node with
  | .sequence text overrides isList values => .sequence text overrides isList (refill values elements)
  | other => elements.headD other

/-- A rhythm with its two lists. -/
def euclid (text : String) (pulses length : Nat) (rotate : Int) (onset : Node) (offset : Option Node)
    (context : Context) (source : Source) : Run Node (List Step) :=
  if onset.elements.isEmpty then
    ⟨.euclid text pulses length rotate onset offset, context, source, .error (.noOnset text)⟩
  else
    let silence := Step.ready (.rest { text := "r", duration := some context.options.duration })
    let on := Deck.ofList onset context
    let off := (offset.map (Deck.ofList · context)).getD ⟨[], 0, context⟩
    let run := dealt realize silence (Rhythm.euclidean pulses length rotate) on off source
    (run.back context).withTree fun (on, off) =>
      .euclid text pulses length rotate (withElements onset on.elements)
        (offset.map (withElements · off.elements))

/-! ### Variables -/

/-- A use of a variable: its own copy of the stored node, in the context of the
    use, or else the payload bound to the name. -/
def use (name text : String) (context : Context) (source : Source) : Run Unit (List Step) :=
  match context.stored.lookup name with
  | some node => (realize node context source).withTree fun _ => ()
  | none =>
    let duration := some context.options.duration
    let result : Except Failure (List Step) :=
      match context.options.bindings.lookup name with
      | some (.sample sample) => .ok [.ready (.sample { text, name := sample, duration })]
      | some (.function run) => .ok [.ready (.function { text, run, duration })]
      | none => .error (.unknownVariable name)
    ⟨(), context, source, result⟩

/-- The events of each of some variables, in copies of the context. -/
def layers (context : Context) : List String → Source → Run Unit (List (List Event))
  | [], source => ⟨(), context, source, .ok []⟩
  | name :: more, source =>
    let run := ((use realize name name context source).withResult assignDurations).back context
    match run.result with
    | .error failure => ⟨(), context, run.source, .error failure⟩
    | .ok layer => (layers context more run.source).withResult fun others => .ok (layer :: others)

end Realizer

end NumberedMelody
