/-
  NumberedMelody/Proofs/Evaluation/AddingZero.lean
  ================================================
  **Adding zero.**  A sum with a single degree of zero keeps the degree of every
  tone and computes its note anew.  A list and the list with zero added sound the
  same as far as the notes of the list are those of its degrees; it is known
  where they come from (`adding_zero_keeps_notes`).
-/
import NumberedMelody.Proofs.Evaluation.Bounds
import NumberedMelody.Proofs.Evaluation.Tuning
import NumberedMelody.Proofs.Grammar.ListOperations

namespace NumberedMelody

open NumberedMelody.Random (Source)
open Node (unplayedAll)

/-! ### Contexts -/

/-- A context that patterns lead to whose nodes are of some kind, from options
    with a key and with a scale that can be counted; also inside brackets. -/
inductive Context.Reached (P : Node → Prop) : Context → Prop where
  | start {options : Options} (tonal : options.Tonal) (sized : options.Sized) : Reached P (.ofOptions options)
  | after {context : Context} {text : String} {nodes tree : List Node} (before : Reached P context)
    (hread : readPattern text = .ok nodes) (hnodes : ∀ node ∈ nodes, node.Everywhere P)
    (hshape : unplayedAll tree = unplayedAll nodes) (source : Source) :
    Reached P (evaluate tree context source).context
  | inside {context : Context} (before : Reached P context) {overrides : Overrides} (hscale : overrides.scale = none) :
    Reached P (context.inside overrides)

namespace Context.Reached

variable {P : Node → Prop} {context : Context}

/-- **What evaluation maintains holds of a context that is reached**, if it holds
    of what is read and of the options that are started with. -/
theorem allowed {I : Invariant} (hI : I.Kept) (hread : ∀ node : Node, node.Readable → P node → I.node node)
    (hstart : ∀ o : Options, o.Tonal → o.Sized → I.options o)
    (hinside : ∀ (o : Options) (overrides : Overrides), I.options o → overrides.scale = none →
      I.options (overrides.apply o))
    (hsource : ∀ source, I.source 0 source) (h : context.Reached P) : I.Allows context := by
  induction h with
  | start tonal sized => exact .ofOptions (hstart _ tonal sized)
  | after _ hpattern hnodes hshape source ih =>
    have hadmits : ∀ node ∈ _, I.Admits node := fun node hnode =>
      ((readPattern_readable hpattern node hnode).and (hnodes node hnode)).imp fun node h => hread node h.1 h.2
    exact (evaluate_maintains hI (Invariant.Admits.of_unplayedAll_eq hI hadmits hshape) ih (hsource source)).context
  | inside _ hscale ih => exact ih.inside_of (hinside _ _ ih.options hscale)

end Context.Reached

/-! ### Vocabularies of patterns -/

/-- The node is within the vocabulary. -/
def Node.IsWithin (v : Vocabulary) (node : Node) : Prop := node.isWithin v = true

theorem exists_bound {α : Type} {P : Nat → α → Prop} {xs : List α} (h : ∀ x ∈ xs, ∃ n, ∀ m ≥ n, P m x) :
    ∃ n, ∀ m ≥ n, ∀ x ∈ xs, P m x := by
  induction xs with
  | nil => exact ⟨0, fun m _ x hx => by cases hx⟩
  | cons x more ih =>
    obtain ⟨n, hn⟩ := h x (List.mem_cons_self ..)
    obtain ⟨n', hn'⟩ := ih fun other hother => h other (List.mem_cons_of_mem _ hother)
    refine ⟨max n n', ?_⟩
    intro m hm
    exact List.forall_mem_cons.mpr ⟨hn m (by omega), hn' m (by omega)⟩

/-- **Every node is within some vocabulary**, at any depth of it. -/
theorem Node.exists_isWithin (node : Node) : ∃ n, ∀ m ≥ n, node.Everywhere (IsWithin ⟨true, m⟩) := by
  have hevery := everywhere_of_all (P := fun _ => True) (fun _ => trivial) node
  induction hevery with
  | @intro node _ _ ih =>
    -- a bound for every larger number of inversions, so that the largest will do for siblings
    obtain ⟨n, hn⟩ := exists_bound ih
    have hhere : ∃ n, ∀ m ≥ n, node.IsWithin ⟨true, m⟩ := by
      cases node with
      | event e =>
        cases e with
        | chord c => exact ⟨(c.inversions.getD 0).natAbs, fun m hm => decide_eq_true hm⟩
        | _ => exact ⟨0, fun m _ => rfl⟩
      | numeral k => exact ⟨(k.numeral.inversions.getD 0).natAbs, fun m hm => decide_eq_true hm⟩
      | _ => exact ⟨0, fun m _ => rfl⟩
    obtain ⟨n', hn'⟩ := hhere
    exact ⟨max n n', fun m hm => .intro (hn' m (by omega)) (hn m (by omega))⟩

theorem Context.Reached.exists_isWithin {P : Node → Prop} {context : Context} (h : context.Reached P) :
    ∃ n, ∀ m ≥ n, context.Reached (Node.IsWithin ⟨true, m⟩) := by
  induction h with
  | start tonal sized => exact ⟨0, fun m _ => .start tonal sized⟩
  | @after _ _ nodes _ _ hread _ hshape source ih =>
    obtain ⟨n, hn⟩ := ih
    have hnodes : ∀ node ∈ nodes, ∃ n, ∀ m ≥ n, node.Everywhere (Node.IsWithin ⟨true, m⟩) :=
      fun node _ => node.exists_isWithin
    obtain ⟨n', hn'⟩ := exists_bound hnodes
    exact ⟨max n n', fun m hm => .after (hn m (by omega)) hread (hn' m (by omega)) hshape source⟩
  | inside _ hscale ih =>
    obtain ⟨n, hn⟩ := ih
    exact ⟨n, fun m hm => .inside (hn m hm) hscale⟩

/-! ### What is maintained in contexts -/

theorem Event.Written.unplayed {v : Vocabulary} {e : Event} (h : e.Written)
    (hwithin : (Node.event e).isWithin v = true) : e.Unplayed v := by
  cases e with
  | pitch p => exact congrArg Pitch.note h
  | chord c =>
    refine ⟨?_, of_decide_eq_true hwithin⟩
    intro tone htone
    exact congrArg Pitch.note (h.2 tone htone)
  | _ => trivial

/-- What is read is within what evaluation is followed in. -/
theorem Node.Readable.tunable {v : Vocabulary} {node : Node} (h : node.Readable) (hwithin : node.IsWithin v) :
    node.Tunable v := by
  constructor
  · rintro e rfl
    exact .inl (Event.Written.unplayed h.textual hwithin)
  · rintro k rfl
    exact hwithin

namespace Context.Reached

variable {P : Node → Prop} {v : Vocabulary} {context : Context}

theorem resolving (h : context.Reached P) : NumberedMelody.resolving.Allows context :=
  h.allowed resolving_kept (fun _ _ _ => trivial) (fun _ htonal _ => htonal)
    (fun _ overrides ho _ => ho.apply overrides) fun _ => trivial

theorem bounding (h : context.Reached P) : NumberedMelody.bounding.Allows context :=
  h.allowed bounding_kept (fun _ hread _ => hread.bounded) (fun _ _ hsized => hsized)
    (fun _ _ ho hscale => ho.apply hscale) fun _ => trivial

theorem tuning (h : context.Reached (Node.IsWithin v)) : (NumberedMelody.tuning v).Allows context :=
  h.allowed (tuning_kept v) (fun _ hread hwithin => hread.tunable hwithin) (fun _ htonal _ => htonal)
    (fun _ overrides ho _ => ho.apply overrides) fun _ => trivial

end Context.Reached

/-! ### Sums -/

theorem events_of_singleton {I : Invariant} (hI : I.Kept) {node : Node} (hnode : I.Admits node) {context : Context}
    (hcontext : I.Allows context) {source : Source} (hsource : I.source 0 source) {events : List Event}
    (hevents : (evaluate [node] context source).result = .ok events) : ∀ e ∈ events, I.event e :=
  (evaluate_maintains hI (List.forall_mem_singleton.mpr hnode) hcontext hsource).result events hevents

theorem evaluate_singleton (node : Node) (context : Context) (source : Source) :
    (evaluate [node] context source).result = (Realizer.events realize node context source).result := by
  simp only [evaluate, Realizer.inOrder, Run.andThen, Run.withTree, Run.withResult, Realizer.events, Run.back]
  cases (realize node context source).result with
  | error failure => rfl
  | ok steps => simp only [Except.bind, List.append_nil]

/-- A sum with a written pitch adds the degree of the pitch to what the list yields. -/
theorem evaluate_sum {left : Node} {context : Context} {source : Source} {events : List Event}
    (hevents : (evaluate [left] context source).result = .ok events) (text : String) (p : Pitch) :
    (evaluate [.operations text left [.binary (.arithmetic .add) (some (.event (.pitch p)))]] context source).result =
      ListArithmetic.combine .add context.options events [.pitch (p.resolve context.options)] := by
  rw [evaluate_singleton] at hevents ⊢
  have hpitch : (Realizer.events realize (.event (.pitch p)) context
      (Realizer.events realize left context source).source).result = .ok [.pitch (p.resolve context.options)] := by
    simp only [Realizer.events, realize_pitch]
    rfl
  have hcontext : (Realizer.events realize left context source).context = context := rfl
  rw [Realizer.events, realize_operations]
  simp only [Realizer.operations, Run.andThen, Run.withTree, Run.withResult, Run.back, hevents, hcontext,
    Realizer.operationsOn, Realizer.operation, Realizer.operand, hpitch, Except.bind]
  cases ListArithmetic.combine .add context.options events [.pitch (p.resolve context.options)] with
  | error failure => rfl
  | ok sums => exact assignDurations_ready sums

theorem mapM_eq_ok_map {α β : Type} {f : α → Except Failure β} {g : α → β} {xs : List α}
    (h : ∀ x ∈ xs, f x = .ok (g x)) : xs.mapM f = .ok (xs.map g) := by
  induction xs with
  | nil => rfl
  | cons x more ih =>
    rw [List.mapM_cons, h x (List.mem_cons_self ..), ih fun other hother => h other (List.mem_cons_of_mem _ hother)]
    rfl

namespace ListArithmetic

variable {o : Options} {e : Event}

theorem add_zero_eq {d : Int} (h : fits32 d = true) : Arithmetic.add.apply d 0 = .ok d := by
  simp [Arithmetic.apply, Arithmetic.divides, Arithmetic.checked, checked32, h]

/-- Every degree of the event as it is, and every note computed anew. -/
def renewed (o : Options) : Event → Event
  | .pitch a => .pitch (derive a a.degree o)
  | .chord c => deriveChord (c.tones.map fun a => derive a a.degree o) o
  | other => other

theorem combinePitch_zero {a : Pitch} (h : fits32 a.degree = true) :
    combinePitch .add o a 0 = .ok (derive a a.degree o) := by
  rw [combinePitch, add_zero_eq h]
  rfl

/-- **Adding zero fails nowhere and renews every event.** -/
theorem combinePair_zero {zero : Pitch} (hzero : zero.degree = 0) (hpitched : e.isPitched = true)
    (hdegrees : ∀ tone ∈ tonesOf e, fits32 tone.degree = true) :
    combinePair .add o e (.pitch zero) = .ok (renewed o e) := by
  cases e with
  | pitch a =>
    rw [combinePair_pitch, hzero, combinePitch_zero (hdegrees a (List.mem_singleton.mpr rfl))]
    rfl
  | chord c =>
    have hpairs : tonePairs (.chord c) (.pitch zero) = c.tones.map fun a => (a, zero) :=
      (List.map_eq_flatMap ..).symm
    have htones : combineTones .add o (.chord c) (.pitch zero) = .ok (c.tones.map fun a => derive a a.degree o) := by
      rw [combineTones, hpairs, List.mapM_map]
      refine mapM_eq_ok_map fun a ha => ?_
      simp only [Function.comp_apply, hzero]
      exact combinePitch_zero (hdegrees a ha)
    rw [combinePair_chord .add o (by simp [ArePitches]), htones]
    rfl
  | _ => cases hpitched

theorem combine_zero {events : List Event} {zero : Pitch} (hzero : zero.degree = 0)
    (hdegrees : ∀ e ∈ events, ∀ tone ∈ tonesOf e, fits32 tone.degree = true) :
    combine .add o events [.pitch zero] = .ok ((events.filter Event.isPitched).map (renewed o)) := by
  have hpairs : eventPairs events [.pitch zero] = (events.filter Event.isPitched).map fun e => (.pitch zero, e) :=
    List.append_nil _
  rw [combine_eq_mapM, hpairs, List.mapM_map]
  refine mapM_eq_ok_map fun e he => ?_
  obtain ⟨hmem, hpitched⟩ := List.mem_filter.mp he
  exact combinePair_zero hzero hpitched (hdegrees e hmem)

/-! ### Notes computed anew -/

theorem noteAnew_derive {a : Pitch} (h : a.Adopted) : (derive a a.degree o).noteAnew = a.noteAnew := by
  obtain ⟨note, frequency, bend, heq⟩ := derive_eq a a.degree o
  rw [heq]
  unfold Pitch.noteAnew
  simp only [Option.or_of_isSome h.key, Option.or_of_isSome h.scale, Option.or_of_isSome h.octave,
    Option.or_of_isSome h.modifier]

theorem note_derive_self {a : Pitch} (h : a.Adopted) : (derive a a.degree o).note = a.noteAnew :=
  (note_derive a a.degree o).trans (noteAnew_derive h)

theorem tonesOf_renewed_chord (c : Chord) (o : Options) :
    tonesOf (renewed o (.chord c)) = sortTones (c.tones.map fun a => derive a a.degree o) := by
  have hresolved : ∀ tone ∈ c.tones.map (fun a => derive a a.degree o), tone.resolve o = tone := by
    intro tone htone
    obtain ⟨a, -, rfl⟩ := List.mem_map.mp htone
    exact resolve_derive a a.degree o
  exact congrArg tonesOf (deriveChord_eq hresolved)

end ListArithmetic

open ListArithmetic (tonesOf renewed derive)

theorem noteAtMost_antisymm {a b : Option Int} (hab : noteAtMost a b = true) (hba : noteAtMost b a = true) : a = b := by
  cases a with
  | none =>
    cases b with
    | none => rfl
    | some b => cases hba
  | some a =>
    cases b with
    | none => cases hab
    | some b =>
      simp only [noteAtMost, decide_eq_true_eq] at hab hba
      rw [Int.le_antisymm hab hba]

/-- The tones have the same notes in the same order. -/
def Event.SameNotes (e other : Event) : Prop := (tonesOf other).map (·.note) = (tonesOf e).map (·.note)

/-- An event whose degrees are those of another one and whose notes were computed
    anew: a pitch for a pitch and a chord for a chord.  The notes are the same
    exactly if the degrees of the other one give its notes. -/
structure Event.RenewedTo (e sum : Event) : Prop where
  pitch_iff : (∃ p, sum = .pitch p) ↔ ∃ p, e = .pitch p
  chord_iff : (∃ c, sum = .chord c) ↔ ∃ c, e = .chord c
  notes : ((tonesOf sum).map (·.note)).Perm ((tonesOf e).map Pitch.noteAnew)
  same_iff : e.SameNotes sum ↔ ((tonesOf e).map Pitch.noteAnew).Perm ((tonesOf e).map (·.note))

namespace Event

variable {v : Vocabulary} {e : Event}

theorem pairwise_notes (h : e.Resolved) :
    ((tonesOf e).map (·.note)).Pairwise fun a b => noteAtMost a b = true := by
  rw [List.pairwise_map]
  cases e with
  | pitch p => exact List.pairwise_singleton _ p
  | chord c => exact Chord.InOrder.sorted h
  | _ => exact .nil

theorem perm_notes_renewed (h : e.Resolved) (o : Options) :
    ((tonesOf (renewed o e)).map (·.note)).Perm ((tonesOf e).map Pitch.noteAnew) := by
  have hnotes : ∀ tone ∈ tonesOf e, (derive tone tone.degree o).note = tone.noteAnew :=
    fun tone htone => ListArithmetic.note_derive_self (Resolved.tonesOf h tone htone).toAdopted
  cases e with
  | pitch p => exact .of_eq (congrArg (fun note => [note]) (hnotes p (List.mem_singleton.mpr rfl)))
  | chord c =>
    rw [ListArithmetic.tonesOf_renewed_chord]
    refine ((perm_sortTones _).map _).trans (.of_eq ?_)
    rw [List.map_map]
    exact List.map_congr_left hnotes
  | _ => exact .nil

theorem pairwise_notes_renewed (e : Event) (o : Options) :
    ((tonesOf (renewed o e)).map (·.note)).Pairwise fun a b => noteAtMost a b = true := by
  rw [List.pairwise_map]
  cases e with
  | pitch p => exact List.pairwise_singleton _ _
  | chord c =>
    rw [ListArithmetic.tonesOf_renewed_chord]
    exact pairwise_sortTones _
  | _ => exact .nil

theorem renewedTo_renewed (h : e.Resolved) (o : Options) : e.RenewedTo (renewed o e) := by
  have hnotes := perm_notes_renewed h o
  have hpitch : (∃ p, renewed o e = .pitch p) ↔ ∃ p, e = .pitch p := by
    cases e <;> simp [renewed, ListArithmetic.deriveChord]
  have hchord : (∃ c, renewed o e = .chord c) ↔ ∃ c, e = .chord c := by
    cases e <;> simp [renewed, ListArithmetic.deriveChord]
  refine ⟨hpitch, hchord, hnotes, ?_⟩
  constructor
  · intro hsame
    exact hnotes.symm.trans (.of_eq hsame)
  · intro hperm
    -- both lists of notes are sorted, so they are the same if they have the same notes
    exact List.Perm.eq_of_pairwise (fun a b _ _ => noteAtMost_antisymm) (pairwise_notes_renewed e o) (pairwise_notes h)
      (hnotes.trans hperm)

/-- Tones in tune keep their notes. -/
theorem RenewedTo.same_of_inTune {sum : Event} (h : e.RenewedTo sum) (htune : ∀ tone ∈ tonesOf e, tone.InTune) :
    e.SameNotes sum :=
  h.same_iff.mpr (.of_eq (List.map_congr_left fun tone htone => (htune tone htone).symm))

end Event

/-! ### Whole lists -/

/-- **Adding zero renews what sounds.**  A list and the list with a degree of zero
    added yield the same pitches and chords in order, with the notes that degrees,
    octaves, modifiers, keys and scales give.  These are the notes of the list
    wherever its tones are reliable, given a vocabulary of the list and of the
    variables that it may use; so everywhere if there are neither inversions nor
    numerals in it. -/
theorem adding_zero_keeps_notes {text other : String} {left : Node} {zero : Pitch} {context : Context}
    {source : Source} {events : List Event} (hread : readPattern text = .ok [left]) (hlist : left.isList = true)
    (hzero : Grammar.operand Grammar.item other.toList = some (.event (.pitch zero), [])) (hdegree : zero.degree = 0)
    (hcontext : context.Reached fun _ => True) (hevents : (evaluate [left] context source).result = .ok events) :
    ∃ nodes sums, readPattern (text ++ ("+" ++ other)) = .ok nodes ∧
      (evaluate nodes context source).result = .ok sums ∧
      List.Forall₂ Event.RenewedTo (events.filter Event.isPitched) sums ∧
      (∃ v, left.Everywhere (Node.IsWithin v) ∧ context.Reached (Node.IsWithin v)) ∧
      ∀ v, left.Everywhere (Node.IsWithin v) → context.Reached (Node.IsWithin v) →
        List.Forall₂ (fun e sum => (∀ tone ∈ tonesOf e, tone.Reliable v) → e.SameNotes sum)
            (events.filter Event.isPitched) sums ∧
          (v.numerals = false → v.inversions = 0 →
            List.Forall₂ Event.SameNotes (events.filter Event.isPitched) sums) := by
  have hreadable := readPattern_readable hread left (List.mem_singleton.mpr rfl)
  have hresolved : ∀ e ∈ events, e.Resolved :=
    events_of_singleton resolving_kept (Node.everywhere_of_all (fun _ => trivial) left) hcontext.resolving trivial hevents
  have hbounded : ∀ e ∈ events, e.Bounded :=
    events_of_singleton bounding_kept (readPattern_bounded hread left (List.mem_singleton.mpr rfl)) hcontext.bounding
      trivial hevents
  have hsums := evaluate_sum hevents (text ++ ("+" ++ other)) zero
  rw [ListArithmetic.combine_zero ((zero.degree_resolve context.options).trans hdegree) hbounded] at hsums
  refine ⟨_, _, readPattern_sum hread hlist hzero, hsums, ?_, ?_, ?_⟩
  · rw [List.forall₂_map_right_iff, List.forall₂_same]
    intro e he
    exact Event.renewedTo_renewed (hresolved e (List.mem_filter.mp he).1) context.options
  · obtain ⟨n, hleft⟩ := left.exists_isWithin
    obtain ⟨n', hreached⟩ := hcontext.exists_isWithin
    exact ⟨⟨true, max n n'⟩, hleft _ (by omega), hreached _ (by omega)⟩
  · intro v hwithin hcontext
    have htunable := (hreadable.and hwithin).imp fun _ h => h.1.tunable h.2
    have hplayed : ∀ e ∈ events, e.Played v :=
      events_of_singleton (tuning_kept v) htunable hcontext.tuning trivial hevents
    have hsame : ∀ e ∈ events.filter Event.isPitched, (∀ tone ∈ tonesOf e, tone.Reliable v) →
        e.SameNotes (renewed context.options e) := by
      intro e he hreliable
      have hplayed := hplayed e (List.mem_filter.mp he).1
      refine (Event.renewedTo_renewed hplayed.resolved context.options).same_of_inTune ?_
      intro tone htone
      exact (hplayed.heard tone htone).inTune (hreliable tone htone)
    rw [List.forall₂_map_right_iff, List.forall₂_same, List.forall₂_map_right_iff, List.forall₂_same]
    refine ⟨hsame, ?_⟩
    intro hnumerals hinversions e he
    exact hsame e he fun tone _ => Pitch.reliable_of_plain hnumerals hinversions tone

/-- One list and nothing else. -/
def isOneList (nodes : List Node) : Bool := nodes.length = 1 && nodes.all (·.isList)

theorem exists_of_isOneList {nodes : List Node} (h : isOneList nodes = true) :
    ∃ left, nodes = [left] ∧ left.isList = true := by
  obtain ⟨hone, hlist⟩ := Bool.and_eq_true_iff.mp h
  obtain ⟨left, rfl⟩ := List.length_eq_one_iff.mp (of_decide_eq_true hone)
  exact ⟨left, rfl, List.all_eq_true.mp hlist left (List.mem_singleton.mpr rfl)⟩

/-- A numeral, an inverted chord and a random pitch around middle C. -/
theorem numeral_and_inversion_keep_notes :
    ∃ left nodes events sums, readPattern "(i 024%1 ?)" = .ok [left] ∧
      readPattern ("(i 024%1 ?)" ++ ("+" ++ "0")) = .ok nodes ∧
      (evaluate [left] (.ofOptions {}) (.ofSeed 0)).result = .ok events ∧ events.length = 3 ∧
      (evaluate nodes (.ofOptions {}) (.ofSeed 0)).result = .ok sums ∧
      List.Forall₂ Event.SameNotes (events.filter Event.isPitched) sums := by
  have hcheck : (readPattern "(i 024%1 ?)").toOption.any (fun nodes =>
      isOneList nodes && nodes.all (Node.checkTo (·.isWithin ⟨true, 1⟩) 3) &&
        (evaluate nodes (.ofOptions {}) (.ofSeed 0)).result.toOption.any fun events =>
          events.length = 3 && events.all fun e => (tonesOf e).all Pitch.isNearMiddleC) = true := by decide +kernel
  obtain ⟨nodes, hread, hcheck⟩ := eq_ok_of_any hcheck
  obtain ⟨hnodes, hevents⟩ := Bool.and_eq_true_iff.mp hcheck
  obtain ⟨hone, hwithin⟩ := Bool.and_eq_true_iff.mp hnodes
  obtain ⟨left, rfl, hlist⟩ := exists_of_isOneList hone
  obtain ⟨events, hevents, hnear⟩ := eq_ok_of_any hevents
  obtain ⟨hlength, hnear⟩ := Bool.and_eq_true_iff.mp hnear
  have hstart : ∀ P, (Context.ofOptions {}).Reached P := fun P => .start ⟨rfl, rfl⟩ Options.sized_default
  have hzero : Grammar.operand Grammar.item "0".toList = some (.event (.pitch (.ofDegree 0)), []) := rfl
  obtain ⟨nodes, sums, hsum, hsums, -, -, hsame⟩ :=
    adding_zero_keeps_notes hread hlist hzero rfl (hstart _) hevents
  have hleft := List.all_eq_true.mp hwithin left (List.mem_singleton.mpr rfl)
  obtain ⟨hreliable, -⟩ := hsame ⟨true, 1⟩ (Node.everywhere_of_checkTo 3 hleft) (hstart _)
  refine ⟨left, nodes, events, sums, hread, hsum, hevents, of_decide_eq_true hlength, hsums, ?_⟩
  refine ((List.forall₂_and_left _ _).mpr ⟨?_, hreliable⟩).imp fun e sum h => h.2 h.1
  intro e he tone htone
  have htones := List.all_eq_true.mp hnear e (List.mem_filter.mp he).1
  exact Pitch.reliable_of_isNearMiddleC (by decide) (List.all_eq_true.mp htones tone htone)

/-- The pattern is a list, and with zero added its first event has other notes. -/
def AddingZeroChanges (text : String) (options : Options) : Prop :=
  ∃ left nodes events sums e sum, readPattern text = .ok [left] ∧ left.isList = true ∧
    Grammar.operand Grammar.item "0".toList = some (.event (.pitch (.ofDegree 0)), []) ∧
    readPattern (text ++ ("+" ++ "0")) = .ok nodes ∧ options.Tonal ∧
    (evaluate [left] (.ofOptions options) (.ofSeed 0)).result = .ok events ∧
    (evaluate nodes (.ofOptions options) (.ofSeed 0)).result = .ok sums ∧
    events[0]? = some e ∧ sums[0]? = some sum ∧ ¬e.SameNotes sum

theorem addingZeroChanges_of_startsWith {text : String} {options : Options} {notes others : List (Option Int)}
    (hlist : (readPattern text).toOption.any isOneList = true)
    (htonal : options.Tonal) (halone : (readPattern text).toOption.any (startsWith options notes) = true)
    (hsummed : (readPattern (text ++ ("+" ++ "0"))).toOption.any (startsWith options others) = true)
    (hother : others ≠ notes) : AddingZeroChanges text options := by
  obtain ⟨lefts, hread, hone⟩ := eq_ok_of_any hlist
  obtain ⟨left, rfl, hleft⟩ := exists_of_isOneList hone
  obtain ⟨nodes', events, e, hread', hevents, he, hnotes⟩ := exists_of_startsWith halone
  obtain rfl := Except.ok.inj (hread.symm.trans hread')
  obtain ⟨nodes, sums, sum, hsum, hsums, hsum', hnotes'⟩ := exists_of_startsWith hsummed
  refine ⟨left, nodes, events, sums, e, sum, hread, hleft, rfl, hsum, htonal, hevents, hsums, he, hsum', ?_⟩
  intro hsame
  rw [Event.SameNotes, hnotes, hnotes'] at hsame
  exact hother hsame

/-- Numerals are spelled as degrees of C major, whatever the key is: in D, the
    notes of these degrees are others.  An inversion moves notes by a span that is
    rounded, the octaves of degrees are not. -/
theorem numeral_in_d_and_fractional_inversion_change :
    AddingZeroChanges "(i)" { key := some (.name "D4") } ∧
      AddingZeroChanges "(01%1)" { scale := some (.steps [1.5, 1.0]) } := by
  constructor
  · have halone : (readPattern "(i)").toOption.any
        (startsWith { key := some (.name "D4") } [some 62, some 66, some 69]) = true := by decide +kernel
    have hsummed : (readPattern ("(i)" ++ ("+" ++ "0"))).toOption.any
        (startsWith { key := some (.name "D4") } [some 64, some 68, some 71]) = true := by decide +kernel
    exact addingZeroChanges_of_startsWith (by decide +kernel) ⟨rfl, rfl⟩ halone hsummed (by decide)
  · have halone : (readPattern "(01%1)").toOption.any
        (startsWith { scale := some (.steps [1.5, 1.0]) } [some 61, some 63]) = true := by decide +kernel
    have hsummed : (readPattern ("(01%1)" ++ ("+" ++ "0"))).toOption.any
        (startsWith { scale := some (.steps [1.5, 1.0]) } [some 61, some 62]) = true := by decide +kernel
    exact addingZeroChanges_of_startsWith (by decide +kernel) ⟨rfl, rfl⟩ halone hsummed (by decide)

end NumberedMelody
