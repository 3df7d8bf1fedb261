/-
  NumberedMelody/Proofs/Evaluation/EagerVariables.lean
  ====================================================
  **Events that are played again.**  An eager assignment stores the events that
  its value yields, and a use of the variable plays them again.  Whatever is
  evaluated against a key and a scale yields resolved events (`resolving`), so
  that a use takes nothing from its own options, with one exception: a chord
  comes back with the duration of its first tone.  It had that duration already,
  unless it was picked by a vertical arpeggio or has no tones (`leading`).
-/
import NumberedMelody.Grammar.Item
import NumberedMelody.Proofs.Evaluation.Derived
import NumberedMelody.Proofs.Evaluation.Lockstep
import NumberedMelody.Proofs.Evaluation.Maintenance
import NumberedMelody.Proofs.Evaluation.Pieces
import NumberedMelody.Proofs.Event.Resolved

namespace NumberedMelody

open NumberedMelody.Random (Source)

/-! ### Derived events -/

namespace ListArithmetic

variable {o : Options}

theorem complete_derive (template : Pitch) (degree : Int) (ho : o.Tonal) : (derive template degree o).Complete :=
  (Pitch.adopted_adopt _ ho).complete_tune true

theorem resolved_deriveChord (tones : List Pitch) (ho : o.Tonal) : (deriveChord tones o).Resolved :=
  Chord.inOrder_resolve _ ho

theorem Derived.complete {p : Pitch} (h : Derived o p) (ho : o.Tonal) : p.Complete := by
  obtain ⟨template, degree, rfl⟩ := h
  exact complete_derive template degree ho

theorem resolved_combinePair {op : Arithmetic} {l r e : Event} (ho : o.Tonal) (h : combinePair op o l r = .ok e) :
    e.Resolved := by
  rcases combinePair_cases h with ⟨p, hp, rfl⟩ | ⟨tones, -, -, rfl⟩
  · exact hp.complete ho
  · exact resolved_deriveChord tones ho

theorem resolved_mapEvent {expr : Expr} {e e' : Event} (ho : o.Tonal) (he : e.Resolved)
    (h : mapEvent expr o e = .ok e') : e'.Resolved := by
  rcases mapEvent_cases h with ⟨p, hp, rfl⟩ | ⟨tones, -, -, -, rfl⟩ | rfl
  · exact hp.complete ho
  · exact resolved_deriveChord tones ho
  · exact he

theorem complete_pickTone {tones : List Pitch} {index tone : Pitch} (htones : ∀ tone ∈ tones, tone.Complete)
    (h : pickTone tones index = some tone) : tone.Complete := by
  obtain ⟨picked, hpicked, rfl⟩ := pickTone_eq_some h
  have hcomplete := htones picked hpicked
  refine hcomplete.lasting ?_
  simp [hcomplete.duration]

theorem resolved_pickVertical {l i e : Event} (hl : l.Resolved) (hi : i.Resolved)
    (h : e ∈ pickVertical (tonesOf l) i) : e.Resolved := by
  rcases pickVertical_cases h with ⟨index, tone, -, hpick, rfl⟩ | ⟨c, -, rfl⟩ | rfl
  · exact complete_pickTone hl.tonesOf hpick
  · refine Chord.inOrder_sorted ?_ c.text c.duration
    intro tone htone
    obtain ⟨index, -, hpick⟩ := List.mem_filterMap.mp htone
    exact complete_pickTone hl.tonesOf hpick
  · exact hi

theorem resolved_pickHorizontal {pool : List Event} {i e : Event} (hpool : ∀ e ∈ pool, e.Resolved) (hi : i.Resolved)
    (h : e ∈ pickHorizontal pool i) : e.Resolved := by
  rcases pickHorizontal_cases h with hmem | ⟨c, -, rfl⟩ | rfl
  · exact hpool e hmem
  · refine Chord.inOrder_sorted ?_ c.text _
    intro tone htone
    obtain ⟨index, -, picked, hpicked, htone⟩ := mem_pickedTones.mp htone
    exact (hpool picked (mem_of_wrapped hpicked)).tonesOf tone htone
  · exact hi

end ListArithmetic

/-- Options keep a key and a scale, and every event is resolved. -/
def resolving : Invariant where
  options := Options.Tonal
  event := Event.Resolved

theorem resolving_kept : resolving.Kept where
  toKeptByNodes := ⟨fun _ _ => trivial, fun _ _ => trivial, fun _ => trivial, fun _ _ => trivial⟩
  toKeptByOptions := ⟨fun _ ho => ho.apply _, fun ho _ => ⟨ho.key, ho.scale⟩,
    fun ho _ => ⟨ho.key, ho.scale⟩⟩
  toKeptBySources := .of_all fun _ _ => trivial
  toKeptByEvents := {
    against := fun {e o} _ ho => e.resolved_against ho
    numeral := by
      intro k options c _ hc
      obtain ⟨key, scale, degree, shift, htonal, rfl⟩ := RomanNumeral.chordFor_eq_ok hc
      exact Chord.inOrder_resolve _ htonal
    generated := fun _ ho _ overrides => Pitch.complete_generated _ _ overrides ho
    silence := fun _ _ => rfl
    sample := fun _ _ _ => rfl
    function := fun _ _ _ => rfl
    together := fun _ _ => trivial
    setDuration := fun he => he.setDuration _
    combined := fun ho _ _ _ _ _ h => ListArithmetic.resolved_combinePair ho h
    mapped := fun ho he h => ListArithmetic.resolved_mapEvent ho he h
    vertical := fun _ _ hl hi h => ListArithmetic.resolved_pickVertical hl hi h
    horizontal := fun _ hpool hi h => ListArithmetic.resolved_pickHorizontal hpool hi h }

/-! ### Chords that last as long as their first tone -/

def Operation.picksTones : Operation Node → Bool
  | .binary .vertical _ => true
  | _ => false

namespace Node

/-- Tones are picked by index somewhere in a list operation. -/
def picksTones : Node → Bool
  | .operations _ _ steps => steps.any Operation.picksTones
  | _ => false

theorem picksTones_eq_uses (node : Node) : node.picksTones = node.uses .vertical := by
  cases node with
  | operations text left steps =>
    refine congrArg steps.any (funext fun step => ?_)
    cases step with
    | map expr => rfl
    | binary op right => cases op <;> rfl
  | _ => rfl

@[simp] theorem picksTones_unplayed (node : Node) : node.unplayed.picksTones = node.picksTones := by
  simp only [picksTones_eq_uses, uses_unplayed]

end Node

/-- A chord with tones lasts as long as the first of them. -/
def Event.Leading : Event → Prop
  | .chord c => c.tones ≠ [] → c.duration = Chord.firstDuration c.tones
  | _ => True

/-- No tones are picked by index, and chords last as long as their first tones. -/
def leading : Invariant where
  node node := node.picksTones = false
  operator op := op ≠ .vertical
  event := Event.Leading

theorem Event.leading_deriveChord (tones : List Pitch) (o : Options) :
    (ListArithmetic.deriveChord tones o).Leading := fun _ => rfl

theorem leading_combinePair {op : Arithmetic} {o : Options} {l r e : Event}
    (h : ListArithmetic.combinePair op o l r = .ok e) : e.Leading := by
  rcases ListArithmetic.combinePair_cases h with ⟨p, -, rfl⟩ | ⟨tones, -, -, rfl⟩
  · trivial
  · exact Event.leading_deriveChord tones o

theorem leading_mapEvent {expr : Expr} {o : Options} {e e' : Event} (he : e.Leading)
    (h : ListArithmetic.mapEvent expr o e = .ok e') : e'.Leading := by
  rcases ListArithmetic.mapEvent_cases h with ⟨p, -, rfl⟩ | ⟨tones, -, -, -, rfl⟩ | rfl
  · trivial
  · exact Event.leading_deriveChord tones o
  · exact he

theorem leading_pickHorizontal {pool : List Event} {i e : Event} (hpool : ∀ e ∈ pool, e.Leading) (hi : i.Leading)
    (h : e ∈ ListArithmetic.pickHorizontal pool i) : e.Leading := by
  rcases ListArithmetic.pickHorizontal_cases h with hmem | ⟨c, -, rfl⟩ | rfl
  · exact hpool e hmem
  · exact fun _ => rfl
  · exact hi

theorem Event.Leading.setDuration {e : Event} (d : Float) : (e.setDuration d).Leading := by
  cases e with
  | chord c =>
    intro htones
    cases hc : c.tones with
    | nil => simp [Chord.setDuration, hc] at htones
    | cons tone more => simp [Chord.setDuration, Chord.firstDuration, hc]
  | polyphony text layers =>
    obtain ⟨stretched, heq⟩ := Event.setDuration_polyphony text layers d
    rw [heq]
    trivial
  | _ => trivial

theorem leading_kept : leading.Kept where
  toKeptByNodes := by
    refine ⟨?_, ?_, fun _ => rfl, fun _ _ => rfl⟩
    · intro node other hnode hshape
      have hpicks := congrArg Node.picksTones hshape
      simp only [Node.picksTones_unplayed] at hpicks
      exact hpicks.trans hnode
    · rintro text left steps op right hnode hstep rfl
      have hnone := List.any_eq_false.mp hnode _ hstep
      exact hnone rfl
  toKeptByOptions := .of_all fun _ => trivial
  toKeptBySources := .of_all fun _ _ => trivial
  toKeptByEvents := {
    against := by
      intro e o _ _
      cases e with
      | chord c => exact fun _ => rfl
      | _ => trivial
    numeral := by
      intro k options c _ hc
      obtain ⟨key, scale, degree, shift, -, rfl⟩ := RomanNumeral.chordFor_eq_ok hc
      exact fun _ => rfl
    generated := fun _ _ _ _ => trivial
    silence := fun _ _ => trivial
    sample := fun _ _ _ => trivial
    function := fun _ _ _ => trivial
    together := fun _ _ => trivial
    setDuration := fun _ => Event.Leading.setDuration _
    combined := fun _ _ _ _ _ _ h => leading_combinePair h
    mapped := fun _ he h => leading_mapEvent he h
    vertical := fun hop _ _ _ _ => absurd rfl hop
    horizontal := fun _ hpool hi h => leading_pickHorizontal hpool hi h }

theorem Event.Leading.retimed_eq {e : Event} (h : e.Leading) (htones : ∀ c, e = .chord c → c.tones ≠ []) :
    e.retimed = e := by
  rw [retimed_eq_iff]
  rintro c rfl
  exact h (htones c rfl)

/-! ### Events as nodes -/

/-- A pattern yields events against options, and the first has these notes. -/
def startsWith (options : Options) (notes : List (Option Int)) (nodes : List Node) : Bool :=
  (evaluate nodes (.ofOptions options) (.ofSeed 0)).result.toOption.any fun events =>
    events[0]?.any fun e => (ListArithmetic.tonesOf e).map (·.note) = notes

theorem exists_of_startsWith {text : String} {options : Options} {notes : List (Option Int)}
    (h : (readPattern text).toOption.any (startsWith options notes) = true) :
    ∃ nodes events e, readPattern text = .ok nodes ∧
      (evaluate nodes (.ofOptions options) (.ofSeed 0)).result = .ok events ∧ events[0]? = some e ∧
      (ListArithmetic.tonesOf e).map (·.note) = notes := by
  obtain ⟨nodes, hread, hstarts⟩ := eq_ok_of_any h
  obtain ⟨events, hevents, hfirst⟩ := eq_ok_of_any hstarts
  cases hplace : events[0]? with
  | none =>
    rw [hplace] at hfirst
    cases hfirst
  | some e =>
    rw [hplace] at hfirst
    exact ⟨nodes, events, e, hread, hevents, hplace, of_decide_eq_true hfirst⟩

theorem realize_event (e : Event) (context : Context) (source : Source) :
    realize (.event e) context source =
      ⟨.event e, context, source, .ok [.ready (e.against context.options)]⟩ := by
  rw [realize_eq_level]
  rfl

namespace Realizer

theorem nested_event (limit : Nat) (e : Event) (context : Context) (source : Source) :
    nested (limit + 1) (.event e) context source =
      ⟨.event e, context, source, .ok [.ready (e.against context.options)]⟩ := by
  rw [nested_eq_level]
  rfl

theorem inOrder_events (limit : Nat) (events : List Event) (context : Context) (source : Source) :
    inOrder (nested (limit + 1)) (events.map .event) context source =
      ⟨events.map .event, context, source, .ok (events.map fun e => .ready (e.against context.options))⟩ := by
  induction events with
  | nil => rfl
  | cons e more ih =>
    simp only [List.map_cons, inOrder, nested_event, Run.andThen, ih]
    rfl

theorem use_of_events {limit : Nat} {name text stored : String} {events : List Event} {context : Context}
    (h : context.stored.lookup name = some (.sequence stored {} true (events.map .event))) (source : Source) :
    use (nested (limit + 1)) name text context source =
      ⟨(), context, source, .ok (events.map fun e => .ready (e.against context.options))⟩ := by
  unfold use
  simp only [h]
  rw [nested_eq_level]
  show Run.withTree (Run.withTree (Run.back (inOrder (nested (limit + 1)) (events.map .event) context source) _) _) _ = _
  rw [inOrder_events]
  rfl

end Realizer

/-! ### Evaluated events, played again -/

/-- Playing a resolved event yields the event with the duration of a chord taken
    from its first tone, whatever the options are. -/
theorem Event.Resolved.realize_eq {e : Event} (h : e.Resolved) (context : Context) (source : Source) :
    realize (.event e) context source = ⟨.event e, context, source, .ok [.ready e.retimed]⟩ := by
  rw [realize_event, h.against_eq]

/-- An eager assignment against a key and a scale stores what its value yields,
    and every later use plays it again, whatever its own options are. -/
theorem eager_assignment_plays_again {value : Node} {context : Context} {source : Source} {played : List Event}
    (htonal : context.options.Tonal) (hstart : context.start.Tonal)
    (hplayed : (Realizer.events realize value context source).result = .ok played) (text name : String) :
    ∃ stored, (realize (.assignment text name true value) context source).context = context.assign name stored ∧
      (realize (.assignment text name true value) context source).result = .ok [] ∧
      ∀ use later source, later.stored.lookup name = some stored →
        realize (.variable use name) later source =
          ⟨.variable use name, later, source, .ok (played.map fun e => .ready e.retimed)⟩ := by
  refine ⟨.sequence value.text {} true (played.map .event), ?_⟩
  have hassigned : realize (.assignment text name true value) context source =
      Realizer.assignment realize text name true value context source := realize_eq_level ..
  have hresolved : ∀ e ∈ played, e.Resolved := by
    have hallows : resolving.Allows context :=
      ⟨htonal, hstart, fun entry _ => Node.everywhere_of_all (fun _ => trivial) entry.2⟩
    have hrun : (Realizer.events realize value context source).Obeys resolving 0 resolving.Events :=
      (realize_maintains resolving_kept).events resolving_kept (Node.everywhere_of_all (fun _ => trivial) value)
        hallows trivial
    exact hrun.result played hplayed
  rw [hassigned]
  unfold Realizer.assignment
  simp only [if_true, hplayed, true_and]
  intro use later source hstored
  rw [realize_eq_level, nestingLimit_pred_eq_succ]
  simp only [Realizer.level, Realizer.use_of_events hstored]
  have hagain : (played.map fun e => Step.ready (e.against later.options)) =
      played.map fun e => .ready e.retimed :=
    List.map_congr_left fun e he => congrArg Step.ready ((hresolved e he).against_eq later.options)
  simp only [hagain]
  rfl

/-- **Playing evaluated events again.**  What a pattern yields against a key and
    a scale comes back, in any context, as one event with nothing changed but the
    duration of a chord, which becomes that of its first tone.  It was that before
    for every chord with tones, unless the pattern picks tones by index.  An eager
    variable plays the events that its value has yielded, changed in this way only,
    whatever the options of the use are. -/
theorem evaluated_events_played_again (source : Source) :
    (∀ nodes options events, Options.Tonal options →
      (evaluate nodes (.ofOptions options) source).result = .ok events → ∀ e ∈ events,
        (∀ context source,
          realize (.event e) context source = ⟨.event e, context, source, .ok [.ready e.retimed]⟩) ∧
        (e.retimed = e ↔ ∀ c, e = .chord c → c.duration = Chord.firstDuration c.tones) ∧
        ((∀ node ∈ nodes, node.Everywhere fun node => node.picksTones = false) →
          (∀ c, e = .chord c → c.tones ≠ []) → e.retimed = e)) ∧
      ∀ value context played text name, Options.Tonal context.options → Options.Tonal context.start →
        (Realizer.events realize value context source).result = .ok played →
        ∃ stored, (realize (.assignment text name true value) context source).context = context.assign name stored ∧
          (realize (.assignment text name true value) context source).result = .ok [] ∧
          ∀ use later source, later.stored.lookup name = some stored →
            realize (.variable use name) later source =
              ⟨.variable use name, later, source, .ok (played.map fun e => .ready e.retimed)⟩ := by
  constructor
  · intro nodes options events htonal hevents e he
    have hrun : (evaluate nodes (.ofOptions options) source).Obeys resolving 0 resolving.Events :=
      evaluate_maintains resolving_kept (fun node _ => Node.everywhere_of_all (fun _ => trivial) node)
        (.ofOptions htonal) trivial
    have hresolved : e.Resolved := hrun.result events hevents e he
    refine ⟨hresolved.realize_eq, Event.retimed_eq_iff, ?_⟩
    intro hnodes htones
    have hleads : (evaluate nodes (.ofOptions options) source).Obeys leading 0 leading.Events :=
      evaluate_maintains leading_kept hnodes (.ofOptions trivial) trivial
    exact Event.Leading.retimed_eq (hleads.result events hevents e he) htones
  · intro value context played text name htonal hstart hplayed
    exact eager_assignment_plays_again htonal hstart hplayed text name

/-- Two pitches of an eager variable, and one pitch assigned by itself, in
    contexts without a key and a scale. -/
theorem pitches_played_again :
    Options.Tonal {} ∧
      (∃ nodes events, readPattern "A~(0 2) A" = .ok nodes ∧
        (evaluate nodes (.ofOptions {}) (.ofSeed 0)).result = .ok events ∧ events ≠ [] ∧
        ∀ e ∈ events, realize (.event e) (.ofOptions .bare) (.ofSeed 0) =
          ⟨.event e, .ofOptions .bare, .ofSeed 0, .ok [.ready e]⟩) ∧
      ∃ played stored, (Realizer.events realize (.event (.pitch (.ofDegree 3))) (.ofOptions {}) (.ofSeed 0)).result =
          .ok played ∧
        (realize (.variable "A" "A") ((Context.ofOptions .bare).assign "A" stored) (.ofSeed 0)).result =
          .ok (played.map fun e => .ready e.retimed) := by
  have htonal : Options.Tonal {} := ⟨rfl, rfl⟩
  refine ⟨htonal, ?_, ?_⟩
  · have hplain : (readPattern "A~(0 2) A").toOption.any (fun nodes =>
        nodes.all (Node.checkTo (!·.picksTones) 3) &&
          (evaluate nodes (.ofOptions {}) (.ofSeed 0)).result.toOption.any fun events =>
            !events.isEmpty && events.all (·.pitch?.isSome)) = true := by decide +kernel
    obtain ⟨nodes, hread, hnodes⟩ := eq_ok_of_any hplain
    obtain ⟨hpicks, hevents⟩ := Bool.and_eq_true_iff.mp hnodes
    obtain ⟨events, hevents, hpitches⟩ := eq_ok_of_any hevents
    obtain ⟨hsounds, hpitches⟩ := Bool.and_eq_true_iff.mp hpitches
    refine ⟨nodes, events, hread, hevents, by simpa using hsounds, ?_⟩
    intro e he
    obtain ⟨hagain, -, hsame⟩ := (evaluated_events_played_again (.ofSeed 0)).1 nodes {} events htonal hevents e he
    have hretimed : e.retimed = e := by
      apply hsame
      · intro node hnode
        refine (Node.everywhere_of_checkTo 3 (List.all_eq_true.mp hpicks node hnode)).imp ?_
        intro node hnode
        simpa using hnode
      · rintro c rfl
        have hpitch := List.all_eq_true.mp hpitches _ he
        cases hpitch
    rw [hagain, hretimed]
  · have hplayed : (Realizer.events realize (.event (.pitch (.ofDegree 3))) (.ofOptions {}) (.ofSeed 0)).result =
        .ok [.pitch ((Pitch.ofDegree 3).resolve {})] := by
      unfold Realizer.events
      rw [realize_pitch]
      rfl
    obtain ⟨stored, -, -, huse⟩ := (evaluated_events_played_again (.ofSeed 0)).2 (.event (.pitch (.ofDegree 3)))
      (.ofOptions {}) _ "A~3" "A" htonal htonal hplayed
    refine ⟨_, stored, hplayed, ?_⟩
    rw [huse "A" _ (.ofSeed 0) rfl]

/-! ### A chord without tones -/

theorem realize_subdivision (text : String) (overrides : Overrides) (values : List Node) (context : Context)
    (source : Source) :
    realize (.subdivision text overrides values) context source =
      (((Realizer.inOrder realize values (context.inside overrides) source).withResult fun steps =>
        .ok [.subdivided (context.inside overrides).options.duration steps]).back context).withTree
        (.subdivision text overrides) := by
  rw [realize_eq_level]
  rfl

theorem realize_operations (text : String) (left : Node) (steps : List (Operation Node)) (context : Context)
    (source : Source) :
    realize (.operations text left steps) context source =
      Realizer.operations realize text left steps context source := by
  rw [realize_eq_level]
  rfl

theorem events_singleton (text : String) (overrides : Overrides) (isList : Bool) (e : Event) (context : Context)
    (source : Source) :
    Realizer.events realize (.sequence text overrides isList [.event e]) context source =
      ⟨.sequence text overrides isList [.event e], context, source,
        .ok [e.against (context.inside overrides).options]⟩ := by
  unfold Realizer.events
  simp only [realize_sequence, Realizer.inOrder, realize_event]
  rfl

theorem horizontal_rest_chord (r : Rest) (c : Chord) :
    ListArithmetic.horizontal [.rest r] [.chord c] = [.chord { text := c.text, tones := [] }] := by
  have hnone : (c.tones.flatMap fun index =>
      ((ListArithmetic.wrapped? [Event.rest r] index.degree).map ListArithmetic.tonesOf).getD []) = [] := by
    refine List.flatMap_eq_nil_iff.mpr ?_
    intro index _
    cases hpicked : ListArithmetic.wrapped? [Event.rest r] index.degree with
    | none => rfl
    | some picked =>
      obtain rfl := List.mem_singleton.mp (List.mem_of_getElem? hpicked)
      rfl
  simp only [ListArithmetic.horizontal, ListArithmetic.pickHorizontal, List.flatMap_cons, List.flatMap_nil, hnone]
  rfl

/-- A rest that a chord picks from, inside a subdivision. -/
def isTonelessPick : List Node → Bool
  | [.subdivision _ _ [.operations _ (.sequence _ _ _ [.event (.rest _)])
      [.binary .horizontal (some (.sequence _ _ _ [.event (.chord _)]))]]] => true
  | _ => false

theorem evaluate_tonelessPick {nodes : List Node} (h : isTonelessPick nodes = true) (context : Context)
    (source : Source) :
    ∃ text d, (evaluate nodes context source).result = .ok [.chord { text, tones := [], duration := some d }] := by
  unfold isTonelessPick at h
  split at h
  · rename_i text overrides inner left leftOverrides leftList r right rightOverrides rightList c
    let scope := (context.inside overrides).inside rightOverrides
    refine ⟨(c.resolve scope.options).text, Step.share (context.inside overrides).options.duration 1, ?_⟩
    simp only [evaluate, Realizer.inOrder, realize_subdivision, realize_operations, Realizer.operations,
      events_singleton, Realizer.operationsOn, Realizer.operation, Realizer.operand, Run.andThen, Run.withTree,
      Run.withResult, Except.bind, Event.against, horizontal_rest_chord]
    rfl
  · cases h

/-- A chord without tones that a subdivision has given a duration loses it again. -/
theorem toneless_chord_loses_duration :
    ∃ nodes events e, readPattern "[(r)#(01)]" = .ok nodes ∧
      (evaluate nodes (.ofOptions {}) (.ofSeed 0)).result = .ok events ∧ e ∈ events ∧
      (realize (.event e) (.ofOptions {}) (.ofSeed 0)).result ≠ .ok [.ready e] := by
  have hcheck : (readPattern "[(r)#(01)]").toOption.any isTonelessPick = true := by decide +kernel
  obtain ⟨nodes, hread, hshape⟩ := eq_ok_of_any hcheck
  obtain ⟨text, d, hevents⟩ := evaluate_tonelessPick hshape (.ofOptions {}) (.ofSeed 0)
  refine ⟨nodes, _, _, hread, hevents, List.mem_singleton.mpr rfl, ?_⟩
  rw [realize_event]
  intro hsame
  simp [Event.against, Chord.resolve, Chord.invert, Chord.sort, sortTones, Chord.firstDuration] at hsame

end NumberedMelody
