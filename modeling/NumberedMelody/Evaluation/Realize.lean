/-
  NumberedMelody/Evaluation/Realize.lean
  ======================================
  **Evaluation.**  One level of a tree is run by its kind, with realizers for
  the nodes inside it and for the values of variables.  Closing this over
  itself walks a tree to its depth; a stored value is a tree of its own, and
  nothing keeps a variable from standing for itself, so variables are followed
  to a limit that is out of reach for evaluation that comes to an end.
-/
import NumberedMelody.Evaluation.KeptChord
import NumberedMelody.Evaluation.Leaf
import NumberedMelody.Evaluation.Run

namespace NumberedMelody

open NumberedMelody.Random (Source)

namespace Realizer

/-- One value of a cycle. -/
def visit (inner : Realizer) (text : String) (values : List Node) (visits : Nat) (context : Context)
    (source : Source) : Run Node (List Step) :=
  let place := visits % values.length
  match values[place]? with
  | none => ⟨.cycle text values visits, context, source, .ok []⟩
  | some value =>
    (inner value context source).withTree fun value => .cycle text (values.set place value) (visits + 1)

/-- The value that an assignment stores: the node itself, or for an eager one
    the list of the events that it yields now. -/
def assignment (inner : Realizer) (text name : String) (eager : Bool) (value : Node) (context : Context)
    (source : Source) : Run Node (List Step) :=
  if eager then
    let run := events inner value context source
    match run.result with
    | .error failure => ⟨.assignment text name eager run.tree, context, run.source, .error failure⟩
    | .ok played =>
      let stored := Node.sequence value.text {} true (played.map .event)
      ⟨.assignment text name eager run.tree, context.assign name stored, run.source, .ok []⟩
  else ⟨.assignment text name eager value, context.assign name value, source, .ok []⟩

/-- One node, with realizers for the nodes inside it and for stored values. -/
def level (inner stored : Realizer) : Realizer := fun node context source =>
  let options := context.options
  let yield (steps : List Step) : Run Node (List Step) := ⟨node, context, source, .ok steps⟩
  match node with
  | .blank _ => yield []
  | .bar _ => ⟨node, context.nextMeasure, source, .ok []⟩
  | .change _ change => ⟨node, context.after change, source, .ok []⟩
  | .event e => yield [.ready (e.against options)]
  | .numeral k =>
    let (answer, k) := k.play context
    ⟨.numeral k, context, source, answer.map fun chord => [.ready (.chord chord)]⟩
  | .randomPitch text overrides =>
    let scale := (overrides.apply options).scale.getD (.named Scale.ionian)
    let (degree, source) := source.index scale.size
    ⟨node, context, source, .ok [.ready (.pitch (.generated degree text overrides options))]⟩
  | .randomInteger text overrides low high =>
    let (degree, source) := source.integer low high
    ⟨node, context, source, .ok [.ready (.pitch (.generated degree text overrides options))]⟩
  | .integer text value => yield [.ready (.pitch (.generated value text {} options))]
  | .range _ overrides first last =>
    yield ((rangePitches overrides first last options).map fun p => .ready (.pitch p))
  | .expression text overrides expr =>
    ⟨node, context, source, (expr.eval none).map fun value =>
      [.ready (.pitch (.generated (Binary64.floor32 value) text overrides options))]⟩
  | .sequence text overrides isList values =>
    ((inOrder inner values (context.inside overrides) source).back context).withTree
      (.sequence text overrides isList)
  | .cycle text values visits => visit inner text values visits context source
  | .subdivision text overrides values =>
    let scope := context.inside overrides
    let run := (inOrder inner values scope source).withResult fun steps =>
      .ok [.subdivided scope.options.duration steps]
    (run.back context).withTree (.subdivision text overrides)
  | .repetition text replayed values count => repetition inner text replayed values count context source
  | .operations text left steps => operations inner text left steps context source
  | .euclid text pulses length rotate onset offset =>
    euclid inner text pulses length rotate onset offset context source
  | .assignment text name eager value => assignment inner text name eager value context source
  | .variable text name => (use stored name text context source).withTree fun _ => node
  | .together text names =>
    ((layers stored context names source).withResult fun layers =>
        .ok [.ready (.polyphony text layers)]).withTree fun _ => node

/-- No node is run; this is never reached within the depth of a tree. -/
def exhausted : Realizer := fun node context source => ⟨node, context, source, .error .nestedTooDeep⟩

/-- A tree to a depth of nesting. -/
def toDepth (stored : Realizer) : Nat → Realizer
  | 0 => exhausted
  | depth + 1 => level (toDepth stored depth) stored

/-- A tree, with variables to a depth of nesting. -/
def nested : Nat → Realizer
  | 0 => exhausted
  | limit + 1 => fun node => toDepth (nested limit) node.depth node

end Realizer

/-- How many uses of variables may run inside one another: as many as there are
    addresses of 64 bits.  A call stack holds fewer, so evaluation that would go
    deeper has no end but that of the stack. -/
def nestingLimit : Nat := 18446744073709551616

/-- Run a node. -/
def realize : Realizer := Realizer.nested nestingLimit

/-- Evaluate nodes in order, in one context. -/
def evaluate (nodes : List Node) (context : Context) (source : Source) : Run (List Node) (List Event) :=
  (Realizer.inOrder realize nodes context source).withResult assignDurations

end NumberedMelody
