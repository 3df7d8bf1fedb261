/-
  NumberedMelody/Proofs/Evaluation/DealtLists.lean
  ================================================
  **Lists dealt out over a rhythm.**  Each of the two lists has a scope and a turn
  of its own: the first moves on with every onset and the second with every other
  step (`Standing.beat`), and both start again at their ends.  So what a step
  yields depends on nothing but how many steps of its kind came before it
  (`getElem?_overRhythm`), and a second list without elements yields silences
  (`euclid_deals_over_rhythm`).
-/
import NumberedMelody.Proofs.Evaluation.EagerVariables
import NumberedMelody.Proofs.Evaluation.Product
import NumberedMelody.Proofs.Evaluation.Visits
import NumberedMelody.Proofs.Rhythm.Evenness

namespace NumberedMelody

open NumberedMelody.Random (Source)

/-! ### Scopes -/

theorem Overrides.eq_empty_of_isEmpty {o : Overrides} (h : o.isEmpty = true) : o = {} := by
  cases o
  simp only [isEmpty, Bool.and_eq_true, Option.isNone_iff_eq_none] at h
  obtain ⟨⟨⟨⟨⟨rfl, rfl⟩, rfl⟩, rfl⟩, rfl⟩, rfl⟩ := h
  rfl

/-- The options in a scope are merged, also where there is nothing to merge. -/
theorem Context.options_inside (context : Context) (overrides : Overrides) :
    (context.inside overrides).options = overrides.apply context.options := by
  by_cases hempty : overrides.isEmpty = true
  · rw [inside, if_pos hempty, Overrides.eq_empty_of_isEmpty hempty, Overrides.empty_apply]
  · rw [inside, if_neg hempty]

/-! ### Events over a rhythm -/

/-- What a list of events deals at a turn, starting again at its end; without
    events it is a filler. -/
def turnOf (options : Options) (filler : Event) (events : List Event) (turn : Nat) : Event :=
  (events[turn % events.length]?.map (·.against options)).getD filler

theorem turnOf_nil (options : Options) (filler : Event) (turn : Nat) : turnOf options filler [] turn = filler := rfl

theorem getElem?_against {events : List Event} (hsome : events ≠ []) (options : Options) (filler : Event) (turn : Nat) :
    (events.map (·.against options))[turn % (events.map (·.against options)).length]? =
      some (turnOf options filler events turn) := by
  have hturn : turn % events.length < events.length := Nat.mod_lt turn (List.length_pos_iff.mpr hsome)
  simp [turnOf, hturn]

/-- Two kinds of turns over a rhythm, with so many of each kind made before. -/
def overRhythm (first second : Nat → Event) : List Bool → Nat → Nat → List Event
  | [], _, _ => []
  | hit :: more, i, j =>
    (if hit then first i else second j) :: overRhythm first second more (i + hit.toNat) (j + (!hit).toNat)

theorem length_overRhythm (first second : Nat → Event) (rhythm : List Bool) (i j : Nat) :
    (overRhythm first second rhythm i j).length = rhythm.length := by
  induction rhythm generalizing i j with
  | nil => rfl
  | cons hit more ih => rw [overRhythm, List.length_cons, List.length_cons, ih]

/-- **A step has the turn that comes after those of its kind before it.** -/
theorem getElem?_overRhythm (first second : Nat → Event) {rhythm : List Bool} {step : Nat} {hit : Bool}
    (h : rhythm[step]? = some hit) (i j : Nat) :
    (overRhythm first second rhythm i j)[step]? =
      some (if hit then first (i + (rhythm.take step).count true)
        else second (j + (rhythm.take step).count false)) := by
  induction rhythm generalizing step i j with
  | nil => cases h
  | cons start more ih =>
    cases step with
    | zero =>
      obtain rfl : start = hit := Option.some.inj h
      rfl
    | succ step =>
      rw [overRhythm, List.getElem?_cons_succ, ih h, List.take_succ_cons]
      cases start with
      | true => simp [Nat.add_assoc, Nat.add_comm 1]
      | false => simp [Nat.add_assoc, Nat.add_comm 1]

/-! ### Decks of events -/

namespace Realizer

theorem deal_event {deck : Deck} {events : List Event} (helements : deck.elements = events.map .event)
    (hsome : events ≠ []) (filler : Event) (source : Source) :
    Deck.deal realize deck source =
      ⟨{ deck with dealt := deck.dealt + 1 }, deck.context, source,
        .ok [.ready (turnOf deck.context.options filler events deck.dealt)]⟩ := by
  have hturn : deck.dealt % events.length < events.length := Nat.mod_lt _ (List.length_pos_iff.mpr hsome)
  have hlength : deck.elements.length = events.length := by rw [helements, List.length_map]
  have hplace : deck.elements[deck.dealt % events.length]? = some (.event events[deck.dealt % events.length]) := by
    simp [helements, hturn]
  have hkept : deck.elements.set (deck.dealt % events.length) (.event events[deck.dealt % events.length]) =
      deck.elements := by
    obtain ⟨hlt, hget⟩ := List.getElem?_eq_some_iff.mp hplace
    rw [← hget, List.set_getElem_self]
  simp only [Deck.deal, hlength, hplace, realize_event, Run.withTree, hkept]
  simp [turnOf, hturn]

/-- Two decks of events, each in its scope, that have been dealt so many times.  A
    second deck without events is not dealt at all. -/
structure Standing (ons offs : List Event) (scope scope' : Context) (i j : Nat) (on off : Deck) : Prop where
  on_elements : on.elements = ons.map .event
  on_context : on.context = scope
  on_dealt : on.dealt = i
  off_elements : off.elements = offs.map .event
  off_context : off.context = scope'
  off_dealt : offs ≠ [] → off.dealt = j

variable {ons offs : List Event} {scope scope' : Context} {i j : Nat} {on off : Deck}

/-- A step of the rhythm takes the turn of one deck, and the other stays where it is. -/
theorem Standing.beat (h : Standing ons offs scope scope' i j on off) (hsome : ons ≠ []) (filler : Event) (hit : Bool)
    (source : Source) :
    ∃ on' off' last,
      Realizer.beat realize (.ready filler) hit on off source =
        ⟨(on', off'), last, source,
          .ok [.ready (if hit then turnOf scope.options filler ons i else turnOf scope'.options filler offs j)]⟩ ∧
      Standing ons offs scope scope' (i + hit.toNat) (j + (!hit).toNat) on' off' := by
  obtain ⟨hon, rfl, rfl, hoff, rfl, hdealt⟩ := h
  cases hit with
  | true =>
    refine ⟨{ on with dealt := on.dealt + 1 }, off, on.context, ?_, hon, rfl, rfl, hoff, rfl, hdealt⟩
    simp only [Realizer.beat, if_true, deal_event hon hsome filler, Run.withTree]
  | false =>
    rcases eq_or_ne offs [] with rfl | hothers
    · refine ⟨on, off, on.context, ?_, hon, rfl, rfl, hoff, rfl, fun h => absurd rfl h⟩
      simp only [Realizer.beat, Bool.false_eq_true, if_false, hoff, List.map_nil, List.isEmpty_nil, if_true, turnOf_nil]
    · obtain rfl := hdealt hothers
      have hnodes : off.elements.isEmpty = false := by simpa [hoff] using hothers
      refine ⟨on, { off with dealt := off.dealt + 1 }, off.context, ?_, hon, rfl, rfl, hoff, rfl, fun _ => rfl⟩
      simp only [Realizer.beat, Bool.false_eq_true, if_false, hnodes, deal_event hoff hothers filler, Run.withTree]

/-- **Two decks of events over a rhythm** are dealt in turn, each in its own scope,
    and their elements do not change. -/
theorem Standing.dealt (h : Standing ons offs scope scope' i j on off) (hsome : ons ≠ []) (filler : Event)
    (rhythm : List Bool) (source : Source) :
    ∃ on' off' last i' j',
      Realizer.dealt realize (.ready filler) rhythm on off source =
        ⟨(on', off'), last, source,
          .ok ((overRhythm (turnOf scope.options filler ons) (turnOf scope'.options filler offs) rhythm i j).map
            .ready)⟩ ∧
      Standing ons offs scope scope' i' j' on' off' := by
  induction rhythm generalizing on off i j with
  | nil => exact ⟨on, off, on.context, i, j, rfl, h⟩
  | cons hit more ih =>
    obtain ⟨on', off', last, hbeat, hafter⟩ := h.beat hsome filler hit source
    obtain ⟨on'', off'', last', i', j', hmore, hstands⟩ := ih hafter
    refine ⟨on'', off'', last', i', j', ?_, hstands⟩
    rw [dealt_cons, hbeat]
    simp only [Run.onward, hmore]
    rfl

/-! ### Lists put back -/

theorem refill_elements (values : List Node) : refill values (values.filter (!·.isBlank)) = values := by
  induction values with
  | nil => rfl
  | cons value more ih =>
    cases hblank : value.isBlank <;> simp [refill, hblank, ih]

theorem withElements_elements (node : Node) : withElements node node.elements = node := by
  cases node with
  | sequence text overrides isList values => exact congrArg _ (refill_elements values)
  | _ => rfl

end Realizer

/-! ### Euclidean nodes -/

/-- Events dealt out over a rhythm: the onsets take the first events in turn and
    the other steps the second, each list over and over.  Without second events
    the other steps have a filler. -/
structure DealtOver (rhythm : List Bool) (firsts seconds : List Event) (filler : Event) (events : List Event) :
    Prop where
  length : events.length = rhythm.length
  onset : ∀ step : Nat, rhythm[step]? = some true →
    events[step]? = firsts[(rhythm.take step).count true % firsts.length]?
  other : seconds ≠ [] → ∀ step : Nat, rhythm[step]? = some false →
    events[step]? = seconds[(rhythm.take step).count false % seconds.length]?
  filled : seconds = [] → ∀ step : Nat, rhythm[step]? = some false → events[step]? = some filler

theorem DealtOver.of_overRhythm {ons : List Event} (hsome : ons ≠ []) (offs : List Event) (rhythm : List Bool)
    (options options' : Options) (filler : Event) :
    DealtOver rhythm (ons.map (·.against options)) (offs.map (·.against options')) filler
      (overRhythm (turnOf options filler ons) (turnOf options' filler offs) rhythm 0 0) where
  length := length_overRhythm ..
  onset := by
    intro step hstep
    rw [getElem?_overRhythm _ _ hstep, getElem?_against hsome options filler]
    simp
  other := by
    intro hothers step hstep
    have hoffs : offs ≠ [] := fun hnone => hothers (by rw [hnone, List.map_nil])
    rw [getElem?_overRhythm _ _ hstep, getElem?_against hoffs options' filler]
    simp
  filled := by
    intro hothers step hstep
    obtain rfl := List.map_eq_nil_iff.mp hothers
    rw [getElem?_overRhythm _ _ hstep]
    simp [turnOf_nil]

/-- **Dealing lists out over a euclidean rhythm.**  If the first list has elements,
    and the elements of both are events, then there is one ready event for every
    step of the rhythm, and the node, the context and the random source stay what
    they are.  The onsets have the elements of the first list in turn and the other
    steps those of the second, each resolved under the overrides of its own list
    and of nothing else but the context.  Where the second list is missing or empty
    the other steps are rests, as long as the context says. -/
theorem euclid_deals_over_rhythm (onset : Node) (offset : Option Node) {ons offs : List Event}
    (hons : onset.elements = ons.map .event) (hsome : ons ≠ [])
    (hoffs : (offset.map Node.elements).getD [] = offs.map .event) (text : String) (pulses length : Nat) (rotate : Int)
    (context : Context) (source : Source) :
    ∃ events : List Event,
      realize (.euclid text pulses length rotate onset offset) context source =
        ⟨.euclid text pulses length rotate onset offset, context, source, .ok (events.map .ready)⟩ ∧
      events.length = length ∧
      DealtOver (Rhythm.euclidean pulses length rotate)
        (ons.map (·.against (onset.listOverrides.apply context.options)))
        (offs.map (·.against (((offset.map Node.listOverrides).getD {}).apply context.options)))
        (.rest { text := "r", duration := some context.options.duration }) events := by
  let filler : Event := .rest { text := "r", duration := some context.options.duration }
  let scope := context.inside onset.listOverrides
  let scope' := context.inside ((offset.map Node.listOverrides).getD {})
  let on := Realizer.Deck.ofList onset context
  let off := (offset.map (Realizer.Deck.ofList · context)).getD ⟨[], 0, context⟩
  have hstart : Realizer.Standing ons offs scope scope' 0 0 on off := by
    cases offset with
    | none => exact ⟨hons, rfl, rfl, hoffs, rfl, fun _ => rfl⟩
    | some node => exact ⟨hons, rfl, rfl, hoffs, rfl, fun _ => rfl⟩
  obtain ⟨on', off', last, i', j', hrun, hend⟩ :=
    hstart.dealt hsome filler (Rhythm.euclidean pulses length rotate) source
  have honset : Realizer.withElements onset on'.elements = onset := by
    rw [hend.on_elements, ← hons, Realizer.withElements_elements]
  have hoffset : offset.map (Realizer.withElements · off'.elements) = offset := by
    cases offset with
    | none => rfl
    | some node =>
      rw [hend.off_elements, ← hoffs]
      exact congrArg some (Realizer.withElements_elements node)
  have hnodes : onset.elements.isEmpty = false := by simpa [hons] using hsome
  have hspec := DealtOver.of_overRhythm hsome offs (Rhythm.euclidean pulses length rotate) scope.options scope'.options
    filler
  have hlength := hspec.length.trans (Rhythm.length_euclidean pulses length rotate)
  refine ⟨_, ?_, hlength, ?_⟩
  · rw [realize_eq_level]
    simp only [Realizer.level, Realizer.euclid, hnodes, Bool.false_eq_true, if_false]
    show Run.withTree (Run.back (Realizer.dealt realize _ _ on off source) context) _ = _
    rw [hrun]
    simp only [Run.back, Run.withTree, honset, hoffset]
  · simp only [← context.options_inside]
    exact hspec

/-- A pitch and a chord, an octave up. -/
def highOnsets : List Event := [.pitch (.ofDegree 0), .chord { text := "24", tones := [.ofDegree 2, .ofDegree 4] }]

/-- A rest and a pitch, eighths. -/
def shortOffsets : List Event := [.rest { text := "r" }, .pitch (.ofDegree 3)]

/-- Lists with blanks and marks, over three pulses in eight steps that are rotated
    to the left: the second onset has the chord and the third the pitch again. -/
theorem marked_lists_dealt :
    let onset := Node.sequence "^( 0 24)" { octave := some 1 } true
      [.blank " ", .event (.pitch (.ofDegree 0)), .blank " ",
        .event (.chord { text := "24", tones := [.ofDegree 2, .ofDegree 4] })]
    let offset := Node.sequence "e(r 3)" { duration := some 0.125 } true
      [.event (.rest { text := "r" }), .blank " ", .event (.pitch (.ofDegree 3))]
    onset.elements = highOnsets.map .event ∧ highOnsets ≠ [] ∧
      ((some offset).map Node.elements).getD [] = shortOffsets.map .event ∧
      ∃ events : List Event,
        realize (.euclid "" 3 8 (-2) onset (some offset)) (.ofOptions {}) (.ofSeed 0) =
          ⟨.euclid "" 3 8 (-2) onset (some offset), .ofOptions {}, .ofSeed 0, .ok (events.map .ready)⟩ ∧
        events.length = 8 ∧
        (events[4]?.map fun e => (ListArithmetic.tonesOf e).map (·.note)) = some [some 76, some 79] ∧
        (events[6]?.map fun e => (ListArithmetic.tonesOf e).map (·.note)) = some [some 72] ∧
        events[7]? = some (.rest { text := "r", duration := some 0.125 }) := by
  intro onset offset
  have hsome : highOnsets ≠ [] := List.cons_ne_nil _ _
  have hons : onset.elements = highOnsets.map .event := rfl
  have hoffs : ((some offset).map Node.elements).getD [] = shortOffsets.map .event := rfl
  obtain ⟨events, hrun, hlength, hdealt⟩ :=
    euclid_deals_over_rhythm onset (some offset) hons hsome hoffs "" 3 8 (-2) (.ofOptions {}) (.ofSeed 0)
  have hrhythm : Rhythm.euclidean 3 8 (-2) = [false, true, false, false, true, false, true, false] := by decide
  rw [hrhythm] at hdealt
  refine ⟨hons, hsome, hoffs, events, hrun, hlength, ?_, ?_, ?_⟩
  · rw [hdealt.onset 4 rfl]
    decide +kernel
  · rw [hdealt.onset 6 rfl]
    decide +kernel
  · rw [hdealt.other (List.cons_ne_nil _ _) 7 rfl]
    simp [shortOffsets, offset, Node.listOverrides, Overrides.apply, Event.against]

end NumberedMelody
