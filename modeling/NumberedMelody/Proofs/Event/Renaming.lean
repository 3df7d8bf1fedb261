/-
  NumberedMelody/Proofs/Event/Renaming.lean
  =========================================
  **Keys and scales by other names.**  A key has a note and a place on the line
  of fifths, a scale has its steps and is the chromatic one or not, and nothing
  else of them is ever asked.  So when names are exchanged for others with the
  same answers, a pitch is tuned, a chord inverted and a duration shared out as
  before, and what comes of it has the new names for the old ones.  The
  documents of events tell no names, so they stay as they are
  (`document_event`).
-/
import NumberedMelody.Evaluation.Leaf
import NumberedMelody.Evaluation.Step
import NumberedMelody.Event.Document

namespace NumberedMelody

/-- Other names for keys and scales, by which the same is heard.  Different names
    stay different ones. -/
structure Renaming where
  key : Key → Key
  scale : Scale → Scale
  beq_key : ∀ k k', (key k == key k') = (k == k')
  beq_scale : ∀ s s', (scale s == scale s') = (s == s')
  toMidi_key : ∀ k, (key k).toMidi = k.toMidi
  fifthsOfKey_key : ∀ k, Harmony.fifthsOfKey (key k) = Harmony.fifthsOfKey k
  intervals_scale : ∀ s, (scale s).intervals = s.intervals
  isChromatic_scale : ∀ s, (scale s).isChromatic = s.isChromatic

namespace Renaming

attribute [simp] beq_key beq_scale toMidi_key fifthsOfKey_key intervals_scale isChromatic_scale

variable (names : Renaming)

/-! ### Harmony -/

section Harmony

open Harmony

@[simp] theorem size_scale (scale : Scale) : (names.scale scale).size = scale.size := by
  unfold Scale.size
  rw [names.intervals_scale]

@[simp] theorem span_scale (scale : Scale) : (names.scale scale).span = scale.span := by
  unfold Scale.span
  rw [names.intervals_scale]

@[simp] theorem exactNote_scale (root degree octave modifier : Int) (scale : Scale) :
    exactNote root degree (names.scale scale) octave modifier = exactNote root degree scale octave modifier := by
  unfold exactNote
  rw [names.intervals_scale]

@[simp] theorem degreeChord_scale (degree : Int) (name : Option String) (scale : Scale) (root : Int) (octaves : Nat) :
    degreeChord degree name (names.scale scale) root octaves = degreeChord degree name scale root octaves := by
  unfold degreeChord resolveNote
  simp only [isChromatic_scale, exactNote_scale]

@[simp] theorem spell_key_scale (note : Int) (key : Key) (scale : Scale) :
    spell note (names.key key) (names.scale scale) = spell note key scale := by
  unfold spell tonalPitchClass
  rw [names.isChromatic_scale, names.fifthsOfKey_key]

end Harmony

/-! ### Options and overrides -/

def options (o : Options) : Options := { o with key := o.key.map names.key, scale := o.scale.map names.scale }

def overrides (o : Overrides) : Overrides := { o with key := o.key.map names.key, scale := o.scale.map names.scale }

@[simp] theorem isEmpty_overrides (o : Overrides) : (names.overrides o).isEmpty = o.isEmpty := by
  simp only [Overrides.isEmpty, overrides, Option.isNone_map]

@[simp] theorem overrides_empty : names.overrides {} = {} := rfl

@[simp] theorem apply_overrides (o : Overrides) (ambient : Options) :
    (names.overrides o).apply (names.options ambient) = names.options (o.apply ambient) := by
  simp only [Overrides.apply, overrides, options, Option.map_or]

theorem beq_map {α : Type} [BEq α] {f : α → α} (hf : ∀ a b, (f a == f b) = (a == b)) (x y : Option α) :
    (x.map f == y.map f) = (x == y) := by
  cases x with
  | none => cases y <;> rfl
  | some a =>
    cases y with
    | none => rfl
    | some b => exact hf a b

@[simp] theorem beq_options (o o' : Options) : (names.options o == names.options o') = (o == o') := by
  change instBEqOptions.beq _ _ = instBEqOptions.beq _ _
  unfold instBEqOptions.beq
  simp only [options, beq_map names.beq_key, beq_map names.beq_scale]

/-! ### Pitches -/

def pitch (p : Pitch) : Pitch :=
  { p with
    overrides := names.overrides p.overrides
    key := p.key.map names.key
    scale := p.scale.map names.scale }

@[simp] theorem adopt_pitch (p : Pitch) (ambient : Options) :
    (names.pitch p).adopt (names.options ambient) = names.pitch (p.adopt ambient) := by
  unfold Pitch.adopt
  simp only [pitch, apply_overrides]
  simp only [options, Option.map_or]

@[simp] theorem tune_pitch (p : Pitch) (force : Bool) : (names.pitch p).tune force = names.pitch (p.tune force) := by
  unfold Pitch.tune
  rw [show (names.pitch p).note = p.note from rfl]
  by_cases hkept : (p.note.isSome && !force) = true
  · rw [if_pos hkept, if_pos hkept]
  · rw [if_neg hkept, if_neg hkept]
    rcases hkey : p.key with _ | key
    · simp [pitch, hkey]
    · rcases hscale : p.scale with _ | scale <;> simp [pitch, hkey, hscale]

@[simp] theorem resolve_pitch (p : Pitch) (ambient : Options) :
    (names.pitch p).resolve (names.options ambient) = names.pitch (p.resolve ambient) := by
  unfold Pitch.resolve
  rw [adopt_pitch, tune_pitch]

@[simp] theorem generated_pitch (degree : Int) (text : String) (o : Overrides) (ambient : Options) :
    Pitch.generated degree text (names.overrides o) (names.options ambient) =
      names.pitch (.generated degree text o ambient) :=
  names.resolve_pitch { text, overrides := o, degree } ambient

@[simp] theorem shiftOctave_pitch (p : Pitch) (octaves : Int) :
    (names.pitch p).shiftOctave octaves = names.pitch (p.shiftOctave octaves) := by
  have hspan : (((names.pitch p).scale.map Scale.span).getD 12.0 : Float) = (p.scale.map Scale.span).getD 12.0 := by
    rcases hscale : p.scale with _ | scale <;> simp [pitch, hscale]
  unfold Pitch.shiftOctave
  rw [hspan]
  rcases hnote : p.note with _ | note <;> simp [pitch, hnote]

/-! ### Chords -/

def chord (c : Chord) : Chord :=
  { c with overrides := names.overrides c.overrides, tones := c.tones.map names.pitch }

@[simp] theorem insertTone_map (tone : Pitch) (tones : List Pitch) :
    insertTone (names.pitch tone) (tones.map names.pitch) = (insertTone tone tones).map names.pitch := by
  induction tones with
  | nil => rfl
  | cons other rest ih =>
    rw [List.map_cons, insertTone, insertTone, ih, apply_ite (List.map names.pitch)]
    rfl

@[simp] theorem sortTones_map (tones : List Pitch) :
    sortTones (tones.map names.pitch) = (sortTones tones).map names.pitch := by
  unfold sortTones
  induction tones with
  | nil => rfl
  | cons tone rest ih => rw [List.map_cons, List.foldr_cons, List.foldr_cons, ih, insertTone_map]

theorem modify_map (octaves : Int) (tones : List Pitch) (place : Nat) :
    (tones.map names.pitch).modify place (Pitch.shiftOctave · octaves) =
      (tones.modify place (Pitch.shiftOctave · octaves)).map names.pitch := by
  induction tones generalizing place with
  | nil => cases place <;> rfl
  | cons tone rest ih =>
    cases place with
    | zero => simp
    | succ place => simpa using ih place

@[simp] theorem turned_map (tones : List Pitch) (inversions : Int) :
    Chord.turned (tones.map names.pitch) inversions = (Chord.turned tones inversions).map names.pitch := by
  unfold Chord.turned
  generalize List.range inversions.natAbs = turns
  induction turns generalizing tones with
  | nil => rfl
  | cons i turns ih => rw [List.foldl_cons, List.foldl_cons, List.length_map, modify_map, ih]

@[simp] theorem sort_chord (c : Chord) : (names.chord c).sort = names.chord c.sort := by
  simp only [Chord.sort, chord, sortTones_map]

@[simp] theorem invert_chord (c : Chord) (inversions : Int) :
    (names.chord c).invert inversions = names.chord (c.invert inversions) := by
  unfold Chord.invert
  simp only [chord, List.isEmpty_map, sortTones_map, turned_map]
  split <;> rfl

@[simp] theorem firstDuration_map (tones : List Pitch) :
    Chord.firstDuration (tones.map names.pitch) = Chord.firstDuration tones := by
  cases tones <;> rfl

@[simp] theorem resolve_chord (c : Chord) (ambient : Options) :
    (names.chord c).resolve (names.options ambient) = names.chord (c.resolve ambient) := by
  have htones :
      (names.chord c).tones.map (Pitch.resolve · ((names.chord c).overrides.apply (names.options ambient))) =
        (c.tones.map (Pitch.resolve · (c.overrides.apply ambient))).map names.pitch := by
    simp only [chord, apply_overrides, List.map_map, Function.comp_def, resolve_pitch]
  have hresolved : ({ names.chord c with
        tones := (c.tones.map (Pitch.resolve · (c.overrides.apply ambient))).map names.pitch
        inversions := none } : Chord) =
      names.chord { c with tones := c.tones.map (Pitch.resolve · (c.overrides.apply ambient)), inversions := none } :=
    rfl
  unfold Chord.resolve
  simp only [htones, hresolved]
  rw [show (names.chord c).inversions = c.inversions from rfl, invert_chord, sort_chord]
  simp only [chord, firstDuration_map]

/-! ### Events -/

mutual

def event : Event → Event
  | .pitch p => .pitch (names.pitch p)
  | .chord c => .chord (names.chord c)
  | .rest r => .rest { r with overrides := names.overrides r.overrides }
  | .sample s => .sample s
  | .function f => .function f
  | .polyphony text together => .polyphony text (layers together)

def layer : List Event → List Event
  | [] => []
  | e :: more => event e :: layer more

def layers : List (List Event) → List (List Event)
  | [] => []
  | first :: more => layer first :: layers more

end

@[simp] theorem layer_eq_map (events : List Event) : names.layer events = events.map names.event := by
  induction events with
  | nil => rfl
  | cons e more ih => rw [layer, ih, List.map_cons]

@[simp] theorem layers_eq_map (together : List (List Event)) :
    names.layers together = together.map (List.map names.event) := by
  induction together with
  | nil => rfl
  | cons first more ih => rw [layers, layer_eq_map, ih, List.map_cons]

mutual

@[simp] theorem duration_event : ∀ e : Event, (names.event e).duration = e.duration
  | .pitch _ => rfl
  | .chord _ => rfl
  | .rest _ => rfl
  | .sample _ => rfl
  | .function _ => rfl
  | .polyphony _ together => by simp only [event, Event.duration, layerDurations_layers together]

theorem durations_layer : ∀ events : List Event, Event.durations (names.layer events) = Event.durations events
  | [] => rfl
  | e :: more => by simp only [layer, Event.durations, duration_event e, durations_layer more]

theorem layerDurations_layers :
    ∀ together : List (List Event), Event.layerDurations (names.layers together) = Event.layerDurations together
  | [] => rfl
  | first :: more => by
    simp only [layers, Event.layerDurations, durations_layer first, layerDurations_layers more]

end

theorem longest_layers (together : List (List Event)) :
    Event.longest (names.layers together) = Event.longest together :=
  congrArg Quantity.greatest (names.layerDurations_layers together)

mutual

@[simp] theorem setDuration_event (d : Float) :
    ∀ e : Event, (names.event e).setDuration d = names.event (e.setDuration d)
  | .pitch _ => rfl
  | .chord c => by
    simp only [event, Event.setDuration, Chord.setDuration, chord, List.map_map, Function.comp_def, pitch]
  | .rest _ => rfl
  | .sample _ => rfl
  | .function _ => rfl
  | .polyphony text together => by
    simp only [event, Event.setDuration, longest_layers, stretchLayers_layers _ together]
    split <;> rfl

theorem stretchLayer_layer (factor : Float) :
    ∀ events : List Event,
      Event.stretchLayer factor (names.layer events) = names.layer (Event.stretchLayer factor events)
  | [] => rfl
  | e :: more => by
    rcases hduration : e.duration with _ | d
    · simp only [layer, Event.stretchLayer, duration_event, hduration, stretchLayer_layer factor more]
    · simp only [layer, Event.stretchLayer, duration_event, hduration, stretchLayer_layer factor more,
        setDuration_event (d * factor) e]

theorem stretchLayers_layers (factor : Float) :
    ∀ together : List (List Event),
      Event.stretchLayers factor (names.layers together) = names.layers (Event.stretchLayers factor together)
  | [] => rfl
  | first :: more => by
    simp only [layers, Event.stretchLayers, stretchLayer_layer factor first, stretchLayers_layers factor more]

end

@[simp] theorem isPitched_event (e : Event) : (names.event e).isPitched = e.isPitched := by cases e <;> rfl

@[simp] theorem pitch?_event (e : Event) : (names.event e).pitch? = e.pitch?.map names.pitch := by cases e <;> rfl

@[simp] theorem text_event (e : Event) : (names.event e).text = e.text := by cases e <;> rfl

@[simp] theorem against_event (o : Options) (e : Event) :
    (names.event e).against (names.options o) = names.event (e.against o) := by
  cases e with
  | pitch p => exact congrArg Event.pitch (names.resolve_pitch p o)
  | chord c => exact congrArg Event.chord (names.resolve_chord c o)
  | rest r =>
    simp only [event, Event.against, apply_overrides]
    rfl
  | _ => rfl

/-! ### What is written of events -/

theorem entries_pitch (p : Pitch) : (names.pitch p).entries = p.entries := rfl

mutual

/-- **Keys and scales are not written.** -/
@[simp] theorem document_event : ∀ e : Event, (names.event e).document = e.document
  | .pitch _ => rfl
  | .chord c => by
    simp only [event, Event.document, Chord.entries, chord, List.map_map, Function.comp_def, entries_pitch]
  | .rest _ => rfl
  | .sample _ => rfl
  | .function _ => rfl
  | .polyphony _ together => by simp only [event, Event.document, layerDocuments_layers together]

theorem documents_layer : ∀ events : List Event, Event.documents (names.layer events) = Event.documents events
  | [] => rfl
  | e :: more => by simp only [layer, Event.documents, document_event e, documents_layer more]

theorem layerDocuments_layers :
    ∀ together : List (List Event), Event.layerDocuments (names.layers together) = Event.layerDocuments together
  | [] => rfl
  | first :: more => by
    simp only [layers, Event.layerDocuments, documents_layer first, layerDocuments_layers more]

end

/-! ### Steps -/

mutual

def step : Step → Step
  | .ready e => .ready (names.event e)
  | .subdivided budget children => .subdivided budget (steps children)

def steps : List Step → List Step
  | [] => []
  | first :: more => step first :: steps more

end

@[simp] theorem steps_eq_map (children : List Step) : names.steps children = children.map names.step := by
  induction children with
  | nil => rfl
  | cons first more ih => rw [steps, ih, List.map_cons]

theorem map_bind_append {α β : Type} (f : α → β) (x y : Except Failure (List α)) :
    (do
      let first ← x.map (List.map f)
      let others ← y.map (List.map f)
      return first ++ others) =
    (do
      let first ← x
      let others ← y
      return first ++ others).map (List.map f) := by
  rcases x with failure | first
  · rfl
  · rcases y with failure | others
    · rfl
    · exact congrArg Except.ok List.map_append.symm

mutual

theorem eventsLasting_step (d : Float) :
    ∀ s : Step, (names.step s).eventsLasting d = (s.eventsLasting d).map (List.map names.event)
  | .ready e => by
    simp only [step, Step.eventsLasting, setDuration_event]
    rfl
  | .subdivided _ [] => rfl
  | .subdivided _ (first :: more) => by
    simp only [step, steps, Step.eventsLasting, steps_eq_map, List.length_map]
    exact eventsEachLasting_map _ (first :: more)

theorem eventsEachLasting_map (d : Float) :
    ∀ children : List Step,
      Step.eventsEachLasting d (children.map names.step) =
        (Step.eventsEachLasting d children).map (List.map names.event)
  | [] => rfl
  | first :: more => by
    rw [List.map_cons, Step.eventsEachLasting, Step.eventsEachLasting, eventsLasting_step d first,
      eventsEachLasting_map d more]
    exact map_bind_append names.event _ _

end

theorem events_step (s : Step) : (names.step s).events = s.events.map (List.map names.event) := by
  cases s with
  | ready e => rfl
  | subdivided budget children => exact names.eventsLasting_step budget (.subdivided budget children)

@[simp] theorem assignDurations_map (children : List Step) :
    assignDurations (children.map names.step) = (assignDurations children).map (List.map names.event) := by
  induction children with
  | nil => rfl
  | cons first more ih =>
    rw [List.map_cons, assignDurations, assignDurations, events_step, ih]
    exact map_bind_append names.event _ _

@[simp] theorem pitch?_step (s : Step) : (names.step s).pitch? = s.pitch?.map names.pitch := by
  cases s with
  | ready e => exact names.pitch?_event e
  | subdivided budget children => rfl

theorem map_ready (events : List Event) :
    (events.map names.event).map Step.ready = (events.map Step.ready).map names.step := by
  rw [List.map_map, List.map_map]
  rfl

end Renaming

end NumberedMelody
