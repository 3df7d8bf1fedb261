/-
  NumberedMelody/Proofs/Melody/Sounding.lean
  ==========================================
  **What sounds is fully resolved.**  Against a key and a scale every pitch and
  every tone gets note, octave, modifier and duration (`resolving`), and with
  the note its frequency, whatever the options are (`voicing`).  A chord lasts as
  long as its first tone or as long as it is told to (`timing`), so it has a
  duration unless it has no tones.

  A horizontal arpeggio is the one operation that can make a chord without
  tones: what its indices pick may be rests, and a chord of them is handed on all
  the same, without a duration (`restPick_has_no_tones`).  A pattern without
  horizontal arpeggios has no such chord (`toning`).
-/
import NumberedMelody.Proofs.Melody.SortedChords

namespace NumberedMelody

open NumberedMelody.Random (Source)
open Node (unplayedAll)

/-! ### Frequencies -/

namespace Pitch

variable {p : Pitch}

/-- The frequency is known wherever the note is. -/
def Voiced (p : Pitch) : Prop := p.note.isSome = true → p.frequency.isSome = true

theorem voiced_of_note_eq_none (h : p.note = none) : p.Voiced := by
  intro hnote
  rw [h] at hnote
  cases hnote

theorem Voiced.tune (h : p.Voiced) (force : Bool) : (p.tune force).Voiced := by
  unfold Pitch.tune
  split
  · exact h
  · split
    · exact fun _ => rfl
    · exact h

theorem Voiced.resolve (h : p.Voiced) (o : Options) : (p.resolve o).Voiced :=
  Voiced.tune (p := p.adopt o) h false

theorem Voiced.shiftOctave (h : p.Voiced) (octaves : Int) : (p.shiftOctave octaves).Voiced := by
  unfold Pitch.shiftOctave
  cases hnote : p.note with
  | none =>
    intro hsome
    simp at hsome
  | some note =>
    obtain ⟨frequency, hfrequency⟩ := Option.isSome_iff_exists.mp (h (by rw [hnote]; rfl))
    simp only [hfrequency]
    exact fun _ => rfl

theorem voiced_generated (degree : Int) (text : String) (overrides : Overrides) (o : Options) :
    (generated degree text overrides o).Voiced :=
  Voiced.resolve (voiced_of_note_eq_none rfl) o

theorem Written.voiced (h : p.Written) : p.Voiced := by
  rw [h]
  exact voiced_of_note_eq_none rfl

end Pitch

theorem ListArithmetic.Derived.voiced {o : Options} {p : Pitch} (h : Derived o p) : p.Voiced := by
  obtain ⟨template, degree, rfl⟩ := h
  exact Pitch.Voiced.tune (Pitch.voiced_of_note_eq_none rfl) true

namespace Event

def Voiced : Event → Prop
  | .pitch p => p.Voiced
  | .chord c => ∀ tone ∈ c.tones, tone.Voiced
  | _ => True

variable {e : Event}

theorem Written.voiced (h : e.Written) : e.Voiced := by
  cases e with
  | pitch p => exact Pitch.Written.voiced h
  | chord c => exact fun tone htone => (h.2 tone htone).voiced
  | _ => trivial

theorem voiced_iff : e.Voiced ↔ ∀ tone ∈ ListArithmetic.tonesOf e, tone.Voiced := by
  cases e <;> simp [Voiced, ListArithmetic.tonesOf]

theorem voiced_resolve (c : Chord) (o : Options) (h : ∀ tone ∈ c.tones, tone.Voiced) :
    (Event.chord (c.resolve o)).Voiced :=
  c.forall_mem_resolve Pitch.Voiced.shiftOctave o fun tone htone => (h tone htone).resolve _

end Event

/-- Frequencies are known wherever notes are. -/
def voicing : Invariant where
  node node := ∀ e, node = .event e → e.Voiced
  event := Event.Voiced

theorem voicing_kept : voicing.Kept where
  toKeptByNodes := by
    refine ⟨?_, fun _ _ => trivial, ?_, ?_⟩
    · intro node other hnode hshape e hother
      exact hnode e (Invariant.eq_event_of_unplayed_eq hshape hother)
    · intro e he e' heq
      obtain rfl := Node.event.inj heq
      exact he
    · intro text values e heq
      cases heq
  toKeptByOptions := .of_all fun _ => trivial
  toKeptBySources := .of_all fun _ _ => trivial
  toKeptByEvents := {
    against := by
      intro e o hnode _
      have he := hnode e rfl
      cases e with
      | pitch p => exact Pitch.Voiced.resolve he o
      | chord c => exact Event.voiced_resolve c o he
      | _ => trivial
    numeral := by
      intro k options c _ hc
      obtain ⟨key, scale, degree, shift, -, rfl⟩ := RomanNumeral.chordFor_eq_ok hc
      refine Event.voiced_resolve _ _ ?_
      intro tone htone
      obtain ⟨note, -, rfl⟩ := List.mem_map.mp htone
      exact fun _ => rfl
    generated := fun {_ o degree} _ _ _ overrides => Pitch.voiced_generated degree _ overrides o
    silence := fun _ _ => trivial
    sample := fun _ _ _ => trivial
    function := fun _ _ _ => trivial
    together := fun _ _ => trivial
    setDuration := fun he =>
      Event.voiced_iff.mpr (ListArithmetic.tones_setDuration (fun _ _ hp => hp) (Event.voiced_iff.mp he) _)
    combined := by
      intro o op l r e _ _ _ _ _ _ h
      rcases ListArithmetic.combinePair_cases h with ⟨p, hp, rfl⟩ | ⟨tones, htones, -, rfl⟩
      · exact hp.voiced
      · exact Event.voiced_resolve _ o fun tone htone => (htones tone htone).voiced
    mapped := by
      intro o expr e e' _ he h
      rcases ListArithmetic.mapEvent_cases h with ⟨p, hp, rfl⟩ | ⟨tones, -, htones, -, rfl⟩ | rfl
      · exact hp.voiced
      · exact Event.voiced_resolve _ o fun tone htone => (htones tone htone).voiced
      · exact he
    vertical := fun _ _ hl hi h => Event.voiced_iff.mpr
      (ListArithmetic.tones_pickVertical (fun _ _ hp => hp) (Event.voiced_iff.mp hl) (Event.voiced_iff.mp hi) h)
    horizontal := fun _ hpool hi h => Event.voiced_iff.mpr
      (ListArithmetic.tones_pickHorizontal (fun e he => Event.voiced_iff.mp (hpool e he)) (Event.voiced_iff.mp hi) h) }

/-! ### Durations of chords -/

def Event.Lasts : Event → Prop
  | .chord c => c.tones ≠ [] → c.duration.isSome = true
  | _ => True

theorem Chord.firstDuration_isSome {tones : List Pitch} (hne : tones ≠ []) (h : ∀ tone ∈ tones, tone.Complete) :
    (firstDuration tones).isSome = true := by
  cases tones with
  | nil => exact absurd rfl hne
  | cons first more => exact (h first (List.mem_cons_self ..)).duration

theorem Chord.lasts_resolve (c : Chord) {o : Options} (ho : o.Tonal) : (Event.chord (c.resolve o)).Lasts :=
  fun hne => firstDuration_isSome hne (c.inOrder_resolve ho).tones

/-- Options keep a key and a scale, events are resolved, and chords with tones
    have a duration. -/
def timing : Invariant where
  options := Options.Tonal
  event e := e.Resolved ∧ e.Lasts

theorem timing_kept : timing.Kept where
  toKeptByNodes := ⟨fun _ _ => trivial, fun _ _ => trivial, fun _ => trivial, fun _ _ => trivial⟩
  toKeptByOptions := ⟨resolving_kept.scope, resolving_kept.duration, resolving_kept.octave⟩
  toKeptBySources := .of_all fun _ _ => trivial
  toKeptByEvents := {
    against := by
      intro e o _ ho
      refine ⟨e.resolved_against ho, ?_⟩
      cases e with
      | chord c => exact c.lasts_resolve ho
      | _ => trivial
    numeral := by
      intro k options c _ hc
      refine ⟨resolving_kept.numeral trivial hc, ?_⟩
      obtain ⟨key, scale, degree, shift, htonal, rfl⟩ := RomanNumeral.chordFor_eq_ok hc
      exact Chord.lasts_resolve _ htonal
    generated := fun _ ho _ overrides => ⟨Pitch.complete_generated _ _ overrides ho, trivial⟩
    silence := fun _ _ => ⟨rfl, trivial⟩
    sample := fun _ _ _ => ⟨rfl, trivial⟩
    function := fun _ _ _ => ⟨rfl, trivial⟩
    together := fun _ _ => ⟨trivial, trivial⟩
    setDuration := by
      intro e d he
      refine ⟨he.1.setDuration d, ?_⟩
      cases e with
      | chord c => exact fun _ => rfl
      | polyphony text layers =>
        obtain ⟨stretched, heq⟩ := Event.setDuration_polyphony text layers d
        rw [heq]
        trivial
      | _ => trivial
    combined := by
      intro o op l r e ho _ hlpitched hrpitched hl hr h
      refine ⟨resolving_kept.combined ho trivial hlpitched hrpitched hl.1 hr.1 h, ?_⟩
      rcases ListArithmetic.combinePair_cases h with ⟨p, -, rfl⟩ | ⟨tones, -, -, rfl⟩
      · trivial
      · exact Chord.lasts_resolve _ ho
    mapped := by
      intro o expr e e' ho he h
      refine ⟨resolving_kept.mapped ho he.1 h, ?_⟩
      rcases ListArithmetic.mapEvent_cases h with ⟨p, -, rfl⟩ | ⟨tones, -, -, -, rfl⟩ | rfl
      · trivial
      · exact Chord.lasts_resolve _ ho
      · exact he.2
    vertical := by
      intro l i e _ htones hl hi h
      refine ⟨resolving_kept.vertical trivial htones hl.1 hi.1 h, ?_⟩
      rcases ListArithmetic.pickVertical_cases h with ⟨index, tone, -, -, rfl⟩ | ⟨c, rfl, rfl⟩ | rfl
      · trivial
      · -- the chord of picks lasts as long as the chord of indices, which has tones if it picks any
        intro hne
        refine hi.2 ?_
        intro hnil
        exact hne (by rw [hnil]; rfl)
      · exact hi.2
    horizontal := by
      intro pool i e _ hpool hi h
      have hresolved := resolving_kept.horizontal trivial (fun e he => (hpool e he).1) hi.1 h
      refine ⟨hresolved, ?_⟩
      rcases ListArithmetic.pickHorizontal_cases h with hmem | ⟨c, -, rfl⟩ | rfl
      · exact (hpool e hmem).2
      · exact fun hne => Chord.firstDuration_isSome hne hresolved.tones
      · exact hi.2 }

/-! ### Chords with tones -/

/-- The event is a chord without tones. -/
def Event.isToneless : Event → Bool
  | .chord c => c.tones.isEmpty
  | _ => false

theorem Event.isToneless_chord {c : Chord} : (Event.chord c).isToneless = false ↔ c.tones ≠ [] := by
  simp [isToneless]

theorem Event.tonesOf_ne_nil {e : Event} (hpitched : e.isPitched = true) (h : e.isToneless = false) :
    ListArithmetic.tonesOf e ≠ [] := by
  cases e with
  | pitch p => exact List.cons_ne_nil _ _
  | chord c => exact isToneless_chord.mp h
  | _ => cases hpitched

theorem Event.toneless_resolve {c : Chord} (h : c.tones ≠ []) (o : Options) :
    (Event.chord (c.resolve o)).isToneless = false := by
  rw [isToneless_chord, ← List.length_pos_iff, c.length_resolve]
  exact List.length_pos_iff.mpr h

theorem Harmony.chordIntervals_ne_nil (name : String) : chordIntervals name ≠ [] := by
  have htable : ∀ entry ∈ chordTable, entry.2 ≠ [] := by decide
  unfold chordIntervals
  cases hfound : chordTable.lookup name with
  | none => exact List.cons_ne_nil _ _
  | some template =>
    obtain ⟨before, after, heq, -⟩ := List.lookup_eq_some_iff.mp hfound
    refine htable (name, template) ?_
    rw [heq]
    exact List.mem_append_right _ (List.mem_cons_self ..)

theorem Harmony.degreeChord_ne_nil (degree : Int) (name : Option String) (scale : Scale) (root : Int)
    (octaves : Nat) : degreeChord degree name scale root octaves ≠ [] := by
  unfold degreeChord
  split
  · next name _ =>
    intro hnil
    have hzero : 0 ∈ List.range (max octaves 1) := List.mem_range.mpr (by omega)
    have hfirst := List.flatMap_eq_nil_iff.mp hnil 0 hzero
    exact chordIntervals_ne_nil name (List.map_eq_nil_iff.mp hfirst)
  · exact List.cons_ne_nil _ _

theorem ListArithmetic.filterMap_pickTone_ne_nil {tones indices : List Pitch} (htones : tones ≠ [])
    (hindices : indices ≠ []) : indices.filterMap (pickTone tones) ≠ [] := by
  obtain ⟨index, hindex⟩ := List.exists_mem_of_ne_nil indices hindices
  obtain ⟨picked, hpicked⟩ := exists_wrapped htones index.degree
  intro hnil
  have hnone := List.filterMap_eq_nil_iff.mp hnil index hindex
  rw [pickTone, hpicked] at hnone
  cases hnone

/-- Nothing is picked horizontally, and every chord has tones. -/
def toning : Invariant where
  node node := node.uses .horizontal = false ∧ ∀ e, node = .event e → e.isToneless = false
  operator op := op ≠ .horizontal
  event e := e.isToneless = false

theorem toning_kept : toning.Kept where
  toKeptByNodes := by
    refine ⟨?_, ?_, ?_, ?_⟩
    · intro node other hnode hshape
      have huses := congrArg (Node.uses .horizontal) hshape
      simp only [Node.uses_unplayed] at huses
      exact ⟨huses.trans hnode.1, fun e hother => hnode.2 e (Invariant.eq_event_of_unplayed_eq hshape hother)⟩
    · rintro text left steps op right ⟨huses, -⟩ hstep rfl
      have hnone := List.any_eq_false.mp huses _ hstep
      exact hnone rfl
    · intro e he
      refine ⟨rfl, ?_⟩
      intro e' heq
      obtain rfl := Node.event.inj heq
      exact he
    · exact fun text values => ⟨rfl, fun e heq => by cases heq⟩
  toKeptByOptions := .of_all fun _ => trivial
  toKeptBySources := .of_all fun _ _ => trivial
  toKeptByEvents := {
    against := by
      intro e o hnode _
      have he := hnode.2 e rfl
      cases e with
      | chord c => exact Event.toneless_resolve (Event.isToneless_chord.mp he) o
      | _ => rfl
    numeral := by
      intro k options c _ hc
      obtain ⟨key, scale, degree, shift, -, rfl⟩ := RomanNumeral.chordFor_eq_ok hc
      refine Event.toneless_resolve ?_ _
      intro hnil
      exact Harmony.degreeChord_ne_nil _ _ _ _ _ (List.map_eq_nil_iff.mp hnil)
    generated := fun _ _ _ _ => rfl
    silence := fun _ _ => rfl
    sample := fun _ _ _ => rfl
    function := fun _ _ _ => rfl
    together := fun _ _ => rfl
    setDuration := by
      intro e d he
      cases e with
      | chord c =>
        refine Event.isToneless_chord.mpr ?_
        intro hnil
        exact Event.isToneless_chord.mp he (List.map_eq_nil_iff.mp hnil)
      | polyphony text layers =>
        obtain ⟨stretched, heq⟩ := Event.setDuration_polyphony text layers d
        rw [heq]
        rfl
      | _ => rfl
    combined := by
      intro o op l r e _ _ hlpitched hrpitched hl hr h
      rcases ListArithmetic.combinePair_cases h with ⟨p, -, rfl⟩ | ⟨tones, -, htones, rfl⟩
      · rfl
      · exact Event.toneless_resolve
          (htones (Event.tonesOf_ne_nil hlpitched hl) (Event.tonesOf_ne_nil hrpitched hr)) o
    mapped := by
      intro o expr e e' _ he h
      rcases ListArithmetic.mapEvent_cases h with ⟨p, -, rfl⟩ | ⟨tones, hpitched, -, htones, rfl⟩ | rfl
      · rfl
      · exact Event.toneless_resolve (htones (Event.tonesOf_ne_nil hpitched he)) o
      · exact he
    vertical := by
      intro l i e _ hl _ hi h
      rcases ListArithmetic.pickVertical_cases h with ⟨index, tone, -, -, rfl⟩ | ⟨c, rfl, rfl⟩ | rfl
      · rfl
      · refine Event.isToneless_chord.mpr ?_
        rw [← List.length_pos_iff, length_sortTones]
        exact List.length_pos_iff.mpr
          (ListArithmetic.filterMap_pickTone_ne_nil hl (Event.isToneless_chord.mp hi))
      · exact hi
    horizontal := fun hop _ _ _ => absurd rfl hop }

/-! ### What sounds -/

/-- A pitch that can be sounded. -/
structure Pitch.Sounds (p : Pitch) : Prop where
  note : p.note.isSome = true
  frequency : p.frequency.isSome = true
  octave : p.octave.isSome = true
  modifier : p.modifier.isSome = true
  duration : p.duration.isSome = true

/-- Pitches and tones can be sounded, and the event has a duration, unless it is
    a chord without tones. -/
def Event.Sounds (e : Event) : Prop :=
  (∀ tone ∈ ListArithmetic.tonesOf e, tone.Sounds) ∧ (e.isToneless = false → e.duration.isSome = true)

theorem Event.Resolved.sounds {e : Event} (h : e.Resolved) (hlasts : e.Lasts) (hvoiced : e.Voiced) : e.Sounds := by
  constructor
  · intro tone htone
    have hcomplete := h.tonesOf tone htone
    exact ⟨hcomplete.note, Event.voiced_iff.mp hvoiced tone htone hcomplete.note, hcomplete.octave, hcomplete.modifier,
      hcomplete.duration⟩
  · intro htones
    cases e with
    | pitch p => exact Pitch.Adopted.duration (Pitch.Complete.toAdopted h)
    | chord c => exact hlasts (isToneless_chord.mp htones)
    | polyphony text layers => rfl
    | _ => exact h

/-- The event sounds, in layers as well; and if nothing is picked horizontally in
    the tree, then no chord is without tones and every event has a duration. -/
def Event.SoundsIn (nodes : List Node) (e : Event) : Prop :=
  e.Throughout Event.Sounds ∧
    ((∀ node ∈ nodes, node.Everywhere fun node => node.uses .horizontal = false) →
      e.Throughout fun e => e.isToneless = false ∧ e.duration.isSome = true)

theorem Event.soundsIn_of_throughout {nodes : List Node} {e : Event} (htiming : e.Throughout timing.event)
    (hvoicing : e.Throughout voicing.event)
    (htoning : (∀ node ∈ nodes, node.Everywhere fun node => node.uses .horizontal = false) →
      e.Throughout toning.event) : e.SoundsIn nodes := by
  have hsounds := (htiming.and hvoicing).imp fun e he => Resolved.sounds he.1.1 he.1.2 he.2
  refine ⟨hsounds, ?_⟩
  intro hnodes
  exact ((htoning hnodes).and hsounds).imp fun e he => ⟨he.1, he.2.2 he.1⟩

/-! ### Horizontal picks -/

/-- What a chord of indices picks is a chord without tones exactly if each of
    its indices picks an event without tones; the chord then has no duration. -/
theorem horizontal_chord {pool : List Event} (hpool : pool ≠ []) (c : Chord) :
    ∃ d, ListArithmetic.horizontal pool [.chord c] = [.chord d] ∧ d.duration = Chord.firstDuration d.tones ∧
      (d.tones = [] ↔ ∀ index ∈ c.tones, ∀ picked,
        ListArithmetic.wrapped? pool index.degree = some picked → ListArithmetic.tonesOf picked = []) := by
  have hsome : ¬ pool.isEmpty = true := by simpa using hpool
  refine ⟨{ text := c.text
            tones := sortTones (ListArithmetic.pickedTones pool c.tones)
            duration := Chord.firstDuration (sortTones (ListArithmetic.pickedTones pool c.tones)) }, ?_, rfl, ?_⟩
  · unfold ListArithmetic.horizontal
    rw [if_neg hsome]
    rfl
  · rw [List.eq_nil_iff_forall_not_mem]
    simp only [mem_sortTones, ListArithmetic.mem_pickedTones]
    constructor
    · intro hnone index hindex picked hpicked
      refine List.eq_nil_iff_forall_not_mem.mpr ?_
      intro tone htone
      exact hnone tone ⟨index, hindex, picked, hpicked, htone⟩
    · rintro hnone tone ⟨index, hindex, picked, hpicked, htone⟩
      rw [hnone index hindex picked hpicked] at htone
      cases htone

/-! ### Whole patterns -/

theorem voicing_admits {node : Node} (h : node.AsWritten) : voicing.Admits node :=
  h.imp fun node hnode e heq => by
    subst heq
    exact Event.Written.voiced hnode

theorem toning_admits {node : Node} (h : node.AsWritten)
    (huses : node.Everywhere fun node => node.uses .horizontal = false) : toning.Admits node := by
  induction h with
  | intro here _ ih =>
    refine .intro ⟨huses.here, ?_⟩ fun child hchild => ih child hchild (huses.inside child hchild)
    rintro e rfl
    cases e with
    | chord c => exact Event.isToneless_chord.mpr here.1
    | _ => rfl

namespace Melody

/-- **With a key and a scale, everything that sounds is fully resolved.**
    Whatever the random stream is and however often the tree was visited before,
    and in the events of a melody after any history of requests: every pitch and
    every tone of a chord has note, frequency, octave, modifier and duration, in
    layers as well, at any depth, and every event has a duration but a chord
    without tones.  Such chords come from horizontal arpeggios only, and exactly
    when all indices of a chord pick events without tones. -/
theorem tonal_events_sound {text : String} {nodes : List Node} (hread : readPattern text = .ok nodes) :
    (∀ tree options source events, unplayedAll tree = unplayedAll nodes → Options.Tonal options →
      (evaluate tree (.ofOptions options) source).result = .ok events → ∀ e ∈ events, e.SoundsIn nodes) ∧
      (∀ source history, (∀ request ∈ history, ∀ options ∈ request.options?, Options.Tonal options) →
        ∀ e ∈ ((ofNodes text nodes).worn source history).events, e.SoundsIn nodes) ∧
      ∀ pool c, pool ≠ [] → ∃ d, ListArithmetic.horizontal pool [.chord c] = [.chord d] ∧
        d.duration = Chord.firstDuration d.tones ∧
        (d.tones = [] ↔ ∀ index ∈ c.tones, ∀ picked,
          ListArithmetic.wrapped? pool index.degree = some picked → ListArithmetic.tonesOf picked = []) := by
  have hwritten := readPattern_written hread
  have htiming := deep_admits_of_readPattern (I := timing) hread
    fun node _ => Node.everywhere_of_all (fun _ => trivial) node
  have hvoicing := deep_admits_of_readPattern hread fun node hnode => voicing_admits (hwritten node hnode)
  have htoning : (∀ node ∈ nodes, node.Everywhere fun node => node.uses .horizontal = false) →
      ∀ node ∈ nodes, toning.deep.Admits node := fun huses =>
    deep_admits_of_readPattern hread fun node hnode => toning_admits (hwritten node hnode) (huses node hnode)
  refine ⟨?_, ?_, fun pool c hpool => horizontal_chord hpool c⟩
  · intro tree options source events hshape htonal hevents e he
    exact Event.soundsIn_of_throughout
      (evaluate_throughout timing_kept htiming hshape htonal trivial hevents e he)
      (evaluate_throughout voicing_kept hvoicing hshape trivial trivial hevents e he)
      fun huses => evaluate_throughout toning_kept (htoning huses) hshape trivial trivial hevents e he
  · intro source history htonal e he
    exact Event.soundsIn_of_throughout
      (worn_events timing_kept.deep (fun _ => trivial) htiming ⟨rfl, rfl⟩ source htonal e he)
      (worn_events voicing_kept.deep (fun _ => trivial) hvoicing trivial source (fun _ _ _ _ => trivial) e he)
      fun huses => worn_events toning_kept.deep (fun _ => trivial) (htoning huses) trivial source
        (fun _ _ _ _ => trivial) e he

/-- Layers of a chord, a rest, a numeral and picked tones, with no horizontal
    arpeggio among them. -/
theorem layered_events_sound :
    ∃ nodes events, readPattern "A=(024 r iv) B=[0 (1,6) (135)@(0 12)] AB 7" = .ok nodes ∧
      (evaluate nodes (.ofOptions {}) (.ofSeed 0)).result = .ok events ∧ events.length = 2 ∧
      ∀ e ∈ events, e.Throughout Event.Sounds ∧
        e.Throughout fun e => e.isToneless = false ∧ e.duration.isSome = true := by
  have hcheck : (readPattern "A=(024 r iv) B=[0 (1,6) (135)@(0 12)] AB 7").toOption.any (fun nodes =>
      nodes.all (Node.checkTo (!·.uses .horizontal) 5) &&
        (evaluate nodes (.ofOptions {}) (.ofSeed 0)).result.toOption.any (·.length == 2)) = true := by
    decide +kernel
  obtain ⟨nodes, hread, hcheck⟩ := eq_ok_of_any hcheck
  obtain ⟨hnodes, hevents⟩ := Bool.and_eq_true_iff.mp hcheck
  obtain ⟨events, hevents, hlength⟩ := eq_ok_of_any hevents
  refine ⟨nodes, events, hread, hevents, beq_iff_eq.mp hlength, ?_⟩
  intro e he
  obtain ⟨hsounds, htones⟩ :=
    (tonal_events_sound hread).1 nodes {} (.ofSeed 0) events rfl ⟨rfl, rfl⟩ hevents e he
  refine ⟨hsounds, htones ?_⟩
  intro node hnode
  refine (Node.everywhere_of_checkTo 5 (List.all_eq_true.mp hnodes node hnode)).imp ?_
  intro other hother
  simpa using hother

/-! ### A chord picked from a rest -/

/-- A chord of indices picks from a list with a rest in it. -/
def isRestPick : List Node → Bool
  | [.operations _ (.sequence _ _ _ [.event (.rest _)])
      [.binary .horizontal (some (.sequence _ _ _ [.event (.chord _)]))]] => true
  | _ => false

theorem evaluate_restPick {nodes : List Node} (h : isRestPick nodes = true) (context : Context) (source : Source) :
    ∃ text, (evaluate nodes context source).result = .ok [.chord { text, tones := [] }] := by
  unfold isRestPick at h
  split at h
  · rename_i text left leftOverrides leftList r right rightOverrides rightList c
    refine ⟨(c.resolve (context.inside rightOverrides).options).text, ?_⟩
    simp only [evaluate, Realizer.inOrder, realize_operations, Realizer.operations, events_singleton,
      Realizer.operationsOn, Realizer.operation, Realizer.operand, Run.andThen, Run.withTree, Run.withResult,
      Except.bind, Event.against, horizontal_rest_chord]
    rfl
  · cases h

/-- With a key and a scale, a chord picked from a rest has no tones and no duration. -/
theorem restPick_has_no_tones :
    ∃ nodes events e, readPattern "(r)#(01)" = .ok nodes ∧ Options.Tonal { seed := some 0 } ∧
      (evaluate nodes (.ofOptions { seed := some 0 }) (.ofSeed 0)).result = .ok events ∧ e ∈ events ∧
      e.isToneless = true ∧ e.duration = none := by
  have hcheck : (readPattern "(r)#(01)").toOption.any isRestPick = true := by decide +kernel
  obtain ⟨nodes, hread, hshape⟩ := eq_ok_of_any hcheck
  obtain ⟨text, hevents⟩ := evaluate_restPick hshape (.ofOptions { seed := some 0 }) (.ofSeed 0)
  exact ⟨nodes, _, _, hread, ⟨rfl, rfl⟩, hevents, List.mem_singleton.mpr rfl, rfl, rfl⟩

end Melody

end NumberedMelody
