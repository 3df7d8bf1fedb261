/-
  NumberedMelody/Proofs/Evaluation/EuclidScopes.lean
  ==================================================
  **The scopes of a rhythm.**  The elements that a rhythm picks from its two lists
  could be run one after the other in the context around it, as a value picked from
  a cycle is (`Realizer.inTurn`).  They are run in two copies of it instead, one for
  each list, and both are dropped at the end.  So what the elements do to the
  options is lost, and the two ways agree on the options exactly if the elements
  leave these as they found them; if the elements leave all of the context alone,
  the two ways are the same run (`euclid_in_current_context_iff`).
-/
import NumberedMelody.Proofs.Evaluation.Brackets
import NumberedMelody.Proofs.Evaluation.DealtLists

namespace NumberedMelody

open NumberedMelody.Random (Source)

/-! ### Nodes that leave the context alone -/

namespace Node

/-- The node leaves the context that it is run in as it is, whatever the visits of
    its cycles. -/
def KeepsContext (node : Node) : Prop :=
  ∀ other : Node, other.unplayed = node.unplayed → ∀ context source, (realize other context source).context = context

/-- Control items, bar lines, assignments, and what may stand for one of them. -/
def reachesOut : Node → Bool
  | .change _ _ => true
  | .bar _ => true
  | .assignment _ _ _ _ => true
  | .cycle _ _ _ => true
  | .variable _ _ => true
  | _ => false

@[simp] theorem reachesOut_unplayed (node : Node) : node.unplayed.reachesOut = node.reachesOut := by
  cases node <;> simp only [unplayed, reachesOut]

theorem KeepsContext.realize_context {node : Node} (h : node.KeepsContext) (context : Context) (source : Source) :
    (realize node context source).context = context :=
  h node rfl context source

/-- A run changes visits only, so what it leaves keeps the context as well. -/
theorem KeepsContext.tree {node : Node} (h : node.KeepsContext) (context : Context) (source : Source) :
    (realize node context source).tree.KeepsContext :=
  fun other hother => h other (hother.trans (realize_keepsShape node context source))

theorem keepsContext_of_not_reachesOut {node : Node} (h : node.reachesOut = false) : node.KeepsContext := by
  intro other hother context source
  rw [← reachesOut_unplayed, ← hother, reachesOut_unplayed] at h
  by_cases hbracket : other.isBracket = true
  · exact realize_bracket_context hbracket context source
  · rw [realize_eq_level]
    cases other with
    | blank text => rfl
    | event e => rfl
    | numeral r => rfl
    | randomPitch text overrides => rfl
    | randomInteger text overrides low high => rfl
    | integer text value => rfl
    | range text overrides first last => rfl
    | expression text overrides expr => rfl
    | change text change => cases h
    | bar text => cases h
    | assignment text name eager value => cases h
    | cycle text values visits => cases h
    | «variable» text name => cases h
    | _ => exact absurd rfl hbracket

end Node

namespace Realizer

/-! ### One context, handed on -/

/-- A rest as long as the options of the context say. -/
def silenceIn (context : Context) : Step := .ready (.rest { text := "r", duration := some context.options.duration })

/-- Two decks dealt out over a rhythm in one context, each element in the context
    that the one before it left; the scopes of the decks do not count. -/
def inTurn (realize : Realizer) : List Bool → Deck → Deck → Context → Source → Run (Deck × Deck) (List Step)
  | [], on, off, context, source => ⟨(on, off), context, source, .ok []⟩
  | hit :: more, on, off, context, source =>
    (beat realize (silenceIn context) hit { on with context } { off with context } source).onward fun run steps =>
      (inTurn realize more run.tree.1 run.tree.2 run.context run.source).withResult fun others => .ok (steps ++ others)

/-- The elements of the deck leave the context alone, and its scope is this one. -/
structure Deck.Keeps (deck : Deck) (context : Context) : Prop where
  elements : ∀ element ∈ deck.elements, element.KeepsContext
  scope : deck.context = context

variable {deck on off : Deck} {context : Context}

theorem Deck.Keeps.deal (h : deck.Keeps context) (source : Source) :
    (deck.deal realize source).context = context ∧ (deck.deal realize source).tree.Keeps context := by
  unfold Deck.deal
  cases hplace : deck.elements[deck.dealt % deck.elements.length]? with
  | none =>
    simp only [hplace]
    exact ⟨h.scope, h⟩
  | some element =>
    have hkeeps := h.elements element (List.mem_of_getElem? hplace)
    have hcontext := (hkeeps.realize_context deck.context source).trans h.scope
    simp only [hplace]
    refine ⟨hcontext, ?_, hcontext⟩
    intro other hother
    rcases List.mem_or_eq_of_mem_set hother with hother | rfl
    · exact h.elements other hother
    · exact hkeeps.tree deck.context source

theorem Deck.Keeps.beat (hon : on.Keeps context) (hoff : off.Keeps context) (silence : Step) (hit : Bool)
    (source : Source) :
    (beat realize silence hit on off source).context = context ∧
      (beat realize silence hit on off source).tree.1.Keeps context ∧
        (beat realize silence hit on off source).tree.2.Keeps context := by
  unfold Realizer.beat
  cases hit with
  | true =>
    obtain ⟨hcontext, htree⟩ := hon.deal source
    exact ⟨hcontext, htree, hoff⟩
  | false =>
    by_cases hempty : off.elements.isEmpty
    · simp only [Bool.false_eq_true, if_false, if_pos hempty]
      exact ⟨hon.scope, hon, hoff⟩
    · simp only [Bool.false_eq_true, if_false, if_neg hempty]
      obtain ⟨hcontext, htree⟩ := hoff.deal source
      exact ⟨hcontext, hon, htree⟩

/-- If the elements leave the context alone, two copies of it are as good as one
    that is handed on. -/
theorem dealt_eq_inTurn (rhythm : List Bool) (hon : on.Keeps context) (hoff : off.Keeps context) (source : Source) :
    dealt realize (silenceIn context) rhythm on off source = inTurn realize rhythm on off context source ∧
      (inTurn realize rhythm on off context source).context = context := by
  induction rhythm generalizing on off source with
  | nil => exact ⟨by rw [dealt, inTurn, hon.scope], rfl⟩
  | cons hit more ih =>
    have hon' : { on with context } = on := by rw [← hon.scope]
    have hoff' : { off with context } = off := by rw [← hoff.scope]
    obtain ⟨hcontext, hlefton, hleftoff⟩ := hon.beat hoff (silenceIn context) hit source
    obtain ⟨hrun, hend⟩ := ih hlefton hleftoff (beat realize (silenceIn context) hit on off source).source
    rw [dealt_cons, inTurn, hon', hoff']
    unfold Run.onward
    cases (beat realize (silenceIn context) hit on off source).result with
    | error failure => exact ⟨rfl, hcontext⟩
    | ok steps =>
      simp only [hcontext, hrun]
      exact ⟨trivial, hend⟩

end Realizer

/-- The rhythm of a node over its two lists, run in the context around it. -/
def Node.euclidInTurn (pulses length : Nat) (rotate : Int) (onset : Node) (offset : Option Node) (context : Context)
    (source : Source) : Run (Realizer.Deck × Realizer.Deck) (List Step) :=
  Realizer.inTurn realize (Rhythm.euclidean pulses length rotate) ⟨onset.elements, 0, context⟩
    ⟨(offset.map Node.elements).getD [], 0, context⟩ context source

theorem Context.inside_of_isEmpty {overrides : Overrides} (h : overrides.isEmpty = true) (context : Context) :
    context.inside overrides = context :=
  if_pos h

theorem ofList_of_isEmpty {node : Node} (h : node.listOverrides.isEmpty = true) (context : Context) :
    Realizer.Deck.ofList node context = ⟨node.elements, 0, context⟩ := by
  rw [Realizer.Deck.ofList, Context.inside_of_isEmpty h]

/-- What a rhythm over lists without overrides yields, if it has onsets to deal. -/
theorem realize_euclid (text : String) (pulses length : Nat) (rotate : Int) {onset : Node} {offset : Option Node}
    (honset : onset.listOverrides.isEmpty = true)
    (hoffset : ∀ node, offset = some node → node.listOverrides.isEmpty = true)
    (hsome : onset.elements.isEmpty = false) (context : Context) (source : Source) :
    let run := realize (.euclid text pulses length rotate onset offset) context source
    let dealt := Realizer.dealt realize (Realizer.silenceIn context) (Rhythm.euclidean pulses length rotate)
      ⟨onset.elements, 0, context⟩ ⟨(offset.map Node.elements).getD [], 0, context⟩ source
    run.source = dealt.source ∧ run.result = dealt.result := by
  have hoff : (offset.map (Realizer.Deck.ofList · context)).getD ⟨[], 0, context⟩ =
      ⟨(offset.map Node.elements).getD [], 0, context⟩ := by
    cases offset with
    | none => rfl
    | some node => exact ofList_of_isEmpty (hoffset node rfl) context
  rw [realize_eq_level]
  simp only [Realizer.level, Realizer.euclid, hsome, Bool.false_eq_true, if_false, ofList_of_isEmpty honset, hoff]
  exact ⟨rfl, rfl⟩

theorem elements_of_realize_euclid {text : String} {pulses length : Nat} {rotate : Int} {onset : Node}
    {offset : Option Node} {context : Context} {source : Source} {steps : List Step}
    (h : (realize (.euclid text pulses length rotate onset offset) context source).result = .ok steps) :
    onset.elements.isEmpty = false := by
  rw [Bool.eq_false_iff]
  intro hempty
  rw [realize_eq_level] at h
  simp only [Realizer.level, Realizer.euclid, hempty, if_true] at h
  cases h

/-- **The elements of a rhythm do not run in the context around it.**  Whatever
    they do to the context is lost, so the options behind the rhythm are those that
    its elements leave, run one after the other, exactly if these leave the options
    as they found them.  If every element leaves the context alone, then lists
    without overrides are run as in the context itself. -/
theorem euclid_in_current_context_iff (text : String) (pulses length : Nat) (rotate : Int) {onset : Node}
    {offset : Option Node} (honset : onset.listOverrides.isEmpty = true)
    (hoffset : ∀ node, offset = some node → node.listOverrides.isEmpty = true) {context : Context} {source : Source}
    {steps : List Step}
    (hok : (realize (.euclid text pulses length rotate onset offset) context source).result = .ok steps) :
    let run := realize (.euclid text pulses length rotate onset offset) context source
    let inTurn := Node.euclidInTurn pulses length rotate onset offset context source
    run.context = context ∧
      (run.context.options = inTurn.context.options ↔ inTurn.context.options = context.options) ∧
      ((∀ element ∈ onset.elements ++ (offset.map Node.elements).getD [], element.KeepsContext) →
        run.context = inTurn.context ∧ run.source = inTurn.source ∧ inTurn.result = .ok steps) := by
  intro run inTurn
  have hcontext : run.context = context := realize_bracket_context rfl context source
  refine ⟨hcontext, by rw [hcontext, eq_comm], ?_⟩
  intro hkeeps
  let on : Realizer.Deck := ⟨onset.elements, 0, context⟩
  let off : Realizer.Deck := ⟨(offset.map Node.elements).getD [], 0, context⟩
  have hon : on.Keeps context := ⟨fun element h => hkeeps element (List.mem_append_left _ h), rfl⟩
  have hoff : off.Keeps context := ⟨fun element h => hkeeps element (List.mem_append_right _ h), rfl⟩
  obtain ⟨hdealt, hend⟩ := Realizer.dealt_eq_inTurn (Rhythm.euclidean pulses length rotate) hon hoff source
  obtain ⟨hsource, hresult⟩ :=
    realize_euclid text pulses length rotate honset hoffset (elements_of_realize_euclid hok) context source
  rw [hdealt] at hsource hresult
  exact ⟨hcontext.trans hend.symm, hsource, hresult.symm.trans hok⟩

theorem pitches_dealt_in_current_context :
    let onset := Node.sequence "(0 2)" {} true
      [.event (.pitch (.ofDegree 0)), .blank " ", .event (.pitch (.ofDegree 2))]
    let offset := Node.sequence "([1 3])" {} true
      [.subdivision "[1 3]" {} [.event (.pitch (.ofDegree 1)), .blank " ", .event (.pitch (.ofDegree 3))]]
    ∃ steps, (realize (.euclid "" 2 3 0 onset (some offset)) (.ofOptions {}) (.ofSeed 0)).result = .ok steps ∧
      (Node.euclidInTurn 2 3 0 onset (some offset) (.ofOptions {}) (.ofSeed 0)).result = .ok steps := by
  intro onset offset
  have hcheck : (realize (.euclid "" 2 3 0 onset (some offset)) (.ofOptions {}) (.ofSeed 0)).result.toOption.any
      (·.length == 3) = true := by
    decide +kernel
  obtain ⟨steps, hok, -⟩ := eq_ok_of_any hcheck
  have hoffset : ∀ node, some offset = some node → node.listOverrides.isEmpty = true := by
    rintro node ⟨rfl⟩
    rfl
  have hkeeps : ∀ element ∈ onset.elements ++ offset.elements, element.KeepsContext := by
    intro element helement
    have hinside : ∀ element ∈ onset.elements ++ offset.elements, element.reachesOut = false := by decide
    exact Node.keepsContext_of_not_reachesOut (hinside element helement)
  obtain ⟨-, -, hinTurn⟩ := euclid_in_current_context_iff "" 2 3 0 rfl hoffset hok
  exact ⟨steps, hok, (hinTurn hkeeps).2.2⟩

/-- An eighth that a rhythm picks is lost, but not one that a cycle picks. -/
theorem duration_dealt_is_lost :
    let eighth := Node.change "e" (.duration 0.125)
    let onset := Node.sequence "(e 0)" {} true [eighth, .blank " ", .event (.pitch (.ofDegree 0))]
    let run := realize (.euclid "(e 0)<2,2>" 2 2 0 onset none) (.ofOptions {}) (.ofSeed 0)
    onset.listOverrides.isEmpty = true ∧ run.result.toOption.isSome = true ∧ run.context.options.duration = 0.25 ∧
      (Node.euclidInTurn 2 2 0 onset none (.ofOptions {}) (.ofSeed 0)).context.options.duration = 0.125 ∧
      (realize (.cycle "<e>" [eighth] 0) (.ofOptions {}) (.ofSeed 0)).context.options.duration = 0.125 ∧
      (readPattern "(e 0)<2,2> 1").toOption.any (fun nodes =>
        (evaluate nodes (.ofOptions {}) (.ofSeed 0)).result.toOption.any fun events =>
          events.map Event.duration == [some 0.125, some 0.25]) = true := by
  refine ⟨rfl, ?_, ?_, ?_, ?_, ?_⟩
  · decide +kernel
  · rfl
  · rfl
  · rfl
  · decide +kernel

end NumberedMelody
