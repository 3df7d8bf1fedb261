/-
  NumberedMelody/Proofs/Evaluation/RandomDegrees.lean
  ===================================================
  **Random degrees are within what their texts ask for.**  A random node makes one
  draw and yields one pitch, within its bounds or on the scale, and the pitch keeps
  the text of the node.  What is done to the pitch afterwards leaves its degree
  alone, or writes the new degree for itself, and then nothing is asked for any
  more.  So the text of a tone says within which bounds its degree is, wherever in
  a run the tone comes from (`drawing_kept`).

  Marks replace no scale, so the scale in force is that of the options that the
  run was started with.
-/
import NumberedMelody.Proofs.Decimal.Numerals
import NumberedMelody.Proofs.Evaluation.Bounds
import NumberedMelody.Proofs.Evaluation.Layers

namespace NumberedMelody

open NumberedMelody.Random (Source)
open Node (unplayedAll)

/-! ### Texts of tones -/

/-- A degree that is written for itself asks for nothing. -/
theorem isDefinite_toString (degree : Int) : IsDefinite (toString degree).toList := by
  have hdigits (n : Nat) : IsDefinite (Nat.toDigits 10 n) := .of_all ⟨rfl, rfl⟩ (Decimal.wholeDigits_toDigits n).isDigit
  rw [Int.toString_eq_repr, Int.repr_eq_if]
  split
  · rw [Nat.toList_repr]
    exact hdigits _
  · rw [String.toList_append, Nat.toList_repr]
    exact .append (by decide) (hdigits _)

theorem Harmony.isDefinite_spell (note : Int) (key : Key) (scale : Scale) :
    IsDefinite (spell note key scale).text.toList := by
  have hoctave (octave : Int) : IsDefinite (octaveMarks octave).toList := by
    unfold octaveMarks
    split <;> rw [String.toList_ofList]
    · exact .replicate (by decide) _
    · exact .replicate (by decide) _
  have haccidental (modifier : Int) : IsDefinite (accidentalMark modifier).toList := by
    unfold accidentalMark
    split
    · decide
    · split <;> decide
  simp only [spell, String.toList_append]
  exact ((hoctave _).append (haccidental _)).append (isDefinite_toString _)

theorem Pitch.text_resolve (p : Pitch) (o : Options) : (p.resolve o).text = p.text := by
  obtain ⟨note, frequency, bend, htune⟩ := (p.adopt o).tune_eq false
  rw [resolve, htune]
  rfl

theorem Pitch.text_shiftOctave (p : Pitch) (octaves : Int) : (p.shiftOctave octaves).text = p.text := by
  unfold shiftOctave
  cases p.note <;> rfl

theorem ListArithmetic.text_derive (template : Pitch) (degree : Int) (o : Options) :
    (derive template degree o).text = toString degree := by
  obtain ⟨note, frequency, bend, heq⟩ := derive_eq template degree o
  rw [heq]

/-! ### Degrees within what is asked for -/

/-- If the text of a tone asks for a random degree, the degree is one of those asked for. -/
structure Pitch.DrawnWithin (scale : Scale) (p : Pitch) : Prop where
  any : AsksAny p.text.toList → 0 ≤ p.degree ∧ p.degree < scale.size
  between : ∀ {a b}, AsksBetween p.text.toList a b → min a b ≤ p.degree ∧ p.degree ≤ max a b

/-- The tones of the event are within what their texts ask for. -/
def Event.DrawnWithin (scale : Scale) (e : Event) : Prop :=
  ∀ tone ∈ ListArithmetic.tonesOf e, tone.DrawnWithin scale

namespace Pitch.DrawnWithin

variable {scale : Scale} {p q : Pitch}

theorem of_asksNone (h : AsksNone p.text.toList) : p.DrawnWithin scale :=
  ⟨fun hany => absurd hany h.2, fun hbetween => absurd hbetween h.not_between⟩

/-- Only the text and the degree of a tone matter. -/
theorem same (h : p.DrawnWithin scale) (htext : q.text = p.text) (hdegree : q.degree = p.degree) :
    q.DrawnWithin scale := by
  refine ⟨?_, ?_⟩ <;> rw [htext, hdegree]
  · exact h.any
  · exact h.between

theorem resolve (h : p.DrawnWithin scale) (o : Options) : (p.resolve o).DrawnWithin scale :=
  h.same (p.text_resolve o) (p.degree_resolve o)

theorem shiftOctave (h : p.DrawnWithin scale) (octaves : Int) : (p.shiftOctave octaves).DrawnWithin scale :=
  h.same (p.text_shiftOctave octaves) (p.degree_shiftOctave octaves)

theorem lasting (p : Pitch) (duration : Option Float) (h : p.DrawnWithin scale) :
    Pitch.DrawnWithin scale { p with duration } :=
  h.same rfl rfl

theorem of_derived {o : Options} (h : ListArithmetic.Derived o p) : p.DrawnWithin scale := by
  obtain ⟨template, degree, rfl⟩ := h
  refine of_asksNone ?_
  rw [ListArithmetic.text_derive]
  exact (isDefinite_toString degree).asksNone

end Pitch.DrawnWithin

namespace Event.DrawnWithin

variable {scale : Scale} {e : Event}

theorem chord {c : Chord} (h : ∀ tone ∈ c.tones, tone.DrawnWithin scale) (o : Options) :
    (Event.chord (c.resolve o)).DrawnWithin scale :=
  c.forall_mem_resolve (fun htone octaves => htone.shiftOctave octaves) o fun tone htone => (h tone htone).resolve _

theorem against (h : e.DrawnWithin scale) (o : Options) : (e.against o).DrawnWithin scale := by
  cases e with
  | pitch p => exact List.forall_mem_singleton.mpr ((h p (List.mem_singleton.mpr rfl)).resolve o)
  | chord c => exact chord h o
  | _ => exact List.forall_mem_nil _

theorem numeral {r : RomanNumeral} {options : Options} {c : Chord} (h : r.chordFor options = .ok c) :
    (Event.chord c).DrawnWithin scale := by
  obtain ⟨key, other, degree, shift, -, rfl⟩ := RomanNumeral.chordFor_eq_ok h
  refine chord ?_ _
  intro tone htone
  obtain ⟨note, -, rfl⟩ := List.mem_map.mp htone
  exact .of_asksNone (Harmony.isDefinite_spell _ _ _).asksNone

theorem combined {op : Arithmetic} {o : Options} {l r : Event} (h : ListArithmetic.combinePair op o l r = .ok e) :
    e.DrawnWithin scale := by
  rcases ListArithmetic.combinePair_cases h with ⟨p, hp, rfl⟩ | ⟨tones, htones, -, rfl⟩
  · exact List.forall_mem_singleton.mpr (.of_derived hp)
  · exact chord (fun tone htone => .of_derived (htones tone htone)) o

theorem mapped {expr : Expr} {o : Options} {e' : Event} (he : e.DrawnWithin scale)
    (h : ListArithmetic.mapEvent expr o e = .ok e') : e'.DrawnWithin scale := by
  rcases ListArithmetic.mapEvent_cases h with ⟨p, hp, rfl⟩ | ⟨tones, -, htones, -, rfl⟩ | rfl
  · exact List.forall_mem_singleton.mpr (.of_derived hp)
  · exact chord (fun tone htone => .of_derived (htones tone htone)) o
  · exact he

end Event.DrawnWithin

/-! ### Nodes -/

/-- The events of a node are within what their texts ask for, and other nodes are
    as they are read. -/
def Node.Drawing (scale : Scale) : Node → Prop
  | .event e => e.DrawnWithin scale
  | node => node.Labelled ∧ node.Bounded

theorem Node.Readable.drawing {node : Node} (h : node.Readable) (scale : Scale) : node.Drawing scale := by
  cases node with
  | event e => exact fun tone htone => .of_asksNone (h.labelled tone htone)
  | _ => exact ⟨h.labelled, h.bounded⟩

theorem Node.drawing_unplayed (node : Node) (scale : Scale) : node.unplayed.Drawing scale ↔ node.Drawing scale := by
  cases node <;> simp only [Node.unplayed, Node.Drawing, Node.Labelled, Node.Bounded]

theorem Node.Drawing.scope {node : Node} {scale : Scale} (h : node.Drawing scale) : node.scope.scale = none := by
  cases node with
  | sequence text overrides isList values => exact h.2
  | subdivision text overrides values => exact h.2
  | _ => rfl

theorem Overrides.scale_apply {overrides : Overrides} (h : overrides.scale = none) (o : Options) :
    (overrides.apply o).scale = o.scale := by
  simp only [apply, h, Option.none_or]

/-- The scale that degrees are counted on under these options. -/
def Options.scaleInForce (o : Options) : Scale := o.scale.getD (.named Scale.ionian)

/-- **What a node generates is within what its text asks for.** -/
theorem Node.Generates.drawnWithin {node : Node} {o : Options} {degree : Int} (h : node.Generates o degree)
    (hnode : node.Drawing o.scaleInForce) (overrides : Overrides) :
    (Pitch.generated degree (node.label degree) overrides o).DrawnWithin o.scaleInForce := by
  refine Pitch.DrawnWithin.resolve ?_ o
  cases node with
  | randomPitch text marks =>
    obtain ⟨hasks, hmarks⟩ := hnode
    refine ⟨fun _ => ?_, fun hbetween => absurd hasks hbetween.not_any⟩
    obtain ⟨hlow, hhigh⟩ := h
    rw [Overrides.scale_apply hmarks] at hhigh
    exact ⟨hlow, hhigh⟩
  | randomInteger text marks low high =>
    -- the bounds of the node and those that its text asks for are the same
    obtain ⟨⟨a, b, hasks, rfl, rfl⟩, -⟩ := hnode
    refine ⟨fun hany => absurd hany hasks.not_any, ?_⟩
    intro c d hbetween
    obtain ⟨rfl, rfl⟩ := hasks.unique hbetween
    obtain ⟨hlow, hhigh⟩ := h
    show min a b ≤ degree ∧ degree ≤ max a b
    omega
  | integer text value => exact .of_asksNone hnode.1
  | expression text marks expr => exact .of_asksNone hnode.1
  | range text marks first last => exact .of_asksNone (isDefinite_toString degree).asksNone
  | _ => cases h

/-! ### Evaluation -/

/-- Random degrees are within what their texts ask for, on the scale of these options. -/
def drawing (o : Options) : Invariant where
  node := Node.Drawing o.scaleInForce
  options other := other.scale = o.scale
  event := Event.DrawnWithin o.scaleInForce

/-- **Random degrees stay within what their texts ask for.** -/
theorem drawing_kept (o : Options) : (drawing o).Kept where
  toKeptByNodes := {
    shape := Node.holds_of_unplayed_eq fun node => node.drawing_unplayed _
    operators := fun _ _ => trivial
    played := id
    list := fun _ _ => ⟨trivial, rfl⟩ }
  toKeptByOptions := ⟨fun hnode ho => (Overrides.scale_apply hnode.scope _).trans ho, fun ho _ => ho, fun ho _ => ho⟩
  toKeptBySources := .of_all fun _ _ => trivial
  toKeptByEvents := {
    against := fun hnode _ => hnode.against _
    numeral := fun _ hc => .numeral hc
    generated := by
      intro node other degree hnode ho hgenerates overrides
      -- the options may have changed since the start of the run, but not their scale
      have hscale : other.scaleInForce = o.scaleInForce := congrArg (·.getD (.named Scale.ionian)) ho
      have hdrawing : node.Drawing other.scaleInForce := hscale ▸ hnode
      refine List.forall_mem_singleton.mpr ?_
      rw [← hscale]
      exact hgenerates.drawnWithin hdrawing overrides
    silence := fun _ _ => List.forall_mem_nil _
    sample := fun _ _ _ => List.forall_mem_nil _
    function := fun _ _ _ => List.forall_mem_nil _
    together := fun _ _ => List.forall_mem_nil _
    setDuration := fun he => ListArithmetic.tones_setDuration Pitch.DrawnWithin.lasting he _
    combined := fun _ _ _ _ _ _ h => .combined h
    mapped := fun _ he h => .mapped he h
    vertical := fun _ _ hl hi h => ListArithmetic.tones_pickVertical Pitch.DrawnWithin.lasting hl hi h
    horizontal := fun _ hpool hi h => ListArithmetic.tones_pickHorizontal hpool hi h }

/-! ### Random nodes -/

namespace Node

/-- The node makes one draw and yields one pitch, whatever runs other nodes. -/
def DrawsPitch (node : Node) (context : Context) (source : Source) (p : Pitch) : Prop :=
  ∀ inner stored, Realizer.level inner stored node context source =
    ⟨node, context, source.skip 1, .ok [.ready (.pitch p)]⟩

/-- A random node makes one draw in every context, and yields one pitch that keeps
    its text and is within what it asks for. -/
def DrawsWithin : Node → Prop
  | .randomPitch text overrides =>
    AsksAny text.toList ∧ ∀ context source, ∃ p, DrawsPitch (.randomPitch text overrides) context source p ∧
      p.text = text ∧ 0 ≤ p.degree ∧ p.degree < context.options.scaleInForce.size
  | .randomInteger text overrides low high =>
    ∃ a b : Int32, AsksBetween text.toList a.toInt b.toInt ∧
      ∀ context source, ∃ p, DrawsPitch (.randomInteger text overrides low high) context source p ∧
        p.text = text ∧ p.degree = (Random.Words.value a b (source.nth 0)).toInt ∧
        min a.toInt b.toInt ≤ p.degree ∧ p.degree ≤ max a.toInt b.toInt
  | _ => True

end Node

theorem exists_int32 {n : Int} (h : fits32 n = true) : ∃ word : Int32, word.toInt = n := by
  rw [fits32_iff] at h
  exact ⟨.ofInt n, Int32.toInt_ofInt_of_le (by omega) (by omega)⟩

theorem AsksBetween.exists_words {text : List Char} {a b : Int} (h : AsksBetween text a b) :
    ∃ first second : Int32, first.toInt = a ∧ second.toInt = b := by
  obtain ⟨front, first, second, -, hfirst, hsecond⟩ := h
  obtain ⟨a, rfl⟩ := exists_int32 (Grammar.fits32_of_readInt32? hfirst)
  obtain ⟨b, rfl⟩ := exists_int32 (Grammar.fits32_of_readInt32? hsecond)
  exact ⟨a, b, rfl, rfl⟩

theorem Pitch.text_generated (degree : Int) (text : String) (overrides : Overrides) (o : Options) :
    (generated degree text overrides o).text = text := text_resolve ..

theorem Pitch.degree_generated (degree : Int) (text : String) (overrides : Overrides) (o : Options) :
    (generated degree text overrides o).degree = degree := degree_resolve ..

namespace Node

variable (text : String) (overrides : Overrides) (context : Context) (source : Source)

theorem drawsPitch_randomPitch : DrawsPitch (.randomPitch text overrides) context source
    (.generated ((source.nth 0).toNat % (overrides.apply context.options).scaleInForce.size : Nat) text overrides
      context.options) := by
  intro inner stored
  have hindex := Random.Source.index_eq (overrides.apply context.options).scaleInForce.size_pos source
  rw [Options.scaleInForce] at hindex
  simp only [Realizer.level, hindex]
  rfl

theorem drawsPitch_randomInteger (low high : Int) : DrawsPitch (.randomInteger text overrides low high) context source
    (.generated (Random.between low high (source.nth 0)) text overrides context.options) := fun _ _ => rfl

end Node

/-- **Random nodes draw within what they ask for**, as they are read. -/
theorem Node.Readable.drawsWithin {node : Node} (h : node.Readable) : node.DrawsWithin := by
  cases node with
  | randomPitch text overrides =>
    refine ⟨h.labelled, ?_⟩
    intro context source
    have hscale : (overrides.apply context.options).scaleInForce = context.options.scaleInForce :=
      congrArg (·.getD (.named Scale.ionian)) (Overrides.scale_apply h.bounded _)
    have hpitch := drawsPitch_randomPitch text overrides context source
    rw [hscale] at hpitch
    refine ⟨_, hpitch, Pitch.text_generated .., ?_⟩
    rw [Pitch.degree_generated]
    exact ⟨Int.natCast_nonneg _, Int.ofNat_lt.mpr (Nat.mod_lt _ (Scale.size_pos _))⟩
  | randomInteger text overrides low high =>
    obtain ⟨a, b, hasks, rfl, rfl⟩ := h.labelled
    obtain ⟨first, second, rfl, rfl⟩ := hasks.exists_words
    refine ⟨first, second, hasks, ?_⟩
    intro context source
    have hpitch := drawsPitch_randomInteger text overrides context source (min first.toInt second.toInt)
      (max first.toInt second.toInt)
    rw [Random.between_ordered, ← Random.Words.toInt_value] at hpitch
    refine ⟨_, hpitch, Pitch.text_generated .., ?_⟩
    rw [Pitch.degree_generated]
    exact ⟨rfl, Random.Words.value_bounds first second _⟩
  | _ => trivial

/-- **Random values stay in bounds at every limit.**  Between bounds of 32 bits, in
    either order, no word wraps around on the way from a raw draw to its value, the
    value is between the bounds, every value between them is drawn, and it takes one
    draw; and an index is below its length, with one draw as well.

    Every random node of a pattern therefore yields a degree within the bounds that
    it is written with, or on the scale in force, which always has a step.  Whatever
    the options and the random stream are, and however often the tree was visited
    before, every tone of every event, in layers as well, is within what its text
    asks for. -/
theorem random_degrees_in_bounds {text : String} {nodes : List Node} (hread : readPattern text = .ok nodes) :
    (∀ a b : Int32,
      (∀ draw, Random.Words.Exact a b draw ∧ min a.toInt b.toInt ≤ (Random.Words.value a b draw).toInt ∧
        (Random.Words.value a b draw).toInt ≤ max a.toInt b.toInt) ∧
      (∀ word : Int32, min a.toInt b.toInt ≤ word.toInt → word.toInt ≤ max a.toInt b.toInt →
        ∃ draw, Random.Words.value a b draw = word) ∧
      ∀ source : Source, source.integer a.toInt b.toInt =
        ((Random.Words.value a b (source.nth 0)).toInt, source.skip 1)) ∧
    (∀ (length : Nat) (source : Source), 0 < length →
      (source.index length).1 < length ∧ (source.index length).2 = source.skip 1) ∧
    (∀ length draw : UInt64, 0 < length.toNat → length.toNat ≤ 2 ^ 31 →
      (Random.Words.place length draw).toInt = (draw.toNat % length.toNat : Nat)) ∧
    (∀ scale : Scale, 0 < scale.size) ∧
    (∀ node ∈ nodes, node.Everywhere Node.DrawsWithin) ∧
    ∀ tree options source events, unplayedAll tree = unplayedAll nodes →
      (evaluate tree (.ofOptions options) source).result = .ok events →
        ∀ e ∈ events, e.Throughout (Event.DrawnWithin options.scaleInForce) := by
  have hreadable := readPattern_readable hread
  refine ⟨?_, ?_, ?_, Scale.size_pos, ?_, ?_⟩
  · intro a b
    refine ⟨fun draw => ⟨Random.Words.exact a b draw, Random.Words.value_bounds a b draw⟩,
      fun word hlow hhigh => Random.Words.exists_value hlow hhigh, ?_⟩
    intro source
    rw [Random.Source.integer_eq, Random.Words.toInt_value]
  · intro length source hpos
    exact ⟨Random.Source.index_lt hpos source, by rw [Random.Source.index_eq hpos]⟩
  · exact fun length draw hpos hcounted => Random.Words.toInt_place hpos hcounted draw
  · exact fun node hnode => (hreadable node hnode).imp fun _ => Node.Readable.drawsWithin
  · intro tree options source events hshape hevents
    have hnodes := deep_admits_of_readPattern (I := drawing options) hread fun node hnode =>
      (hreadable node hnode).imp fun _ h => h.drawing _
    exact evaluate_throughout (drawing_kept options) hnodes hshape rfl trivial hevents

/-- The widest bounds, the wrong way round, and any degree of a scale without steps,
    which counts as twelve. -/
theorem widest_bounds_on_empty_scale :
    ∃ nodes events p q, readPattern "[(2147483647,-2147483648) ^?]" = .ok nodes ∧
      (evaluate nodes (.ofOptions { scale := some (.steps []) }) (.ofSeed 0)).result = .ok events ∧
      .pitch p ∈ events ∧ AsksBetween p.text.toList 2147483647 (-2147483648) ∧
      -2147483648 ≤ p.degree ∧ p.degree ≤ 2147483647 ∧
      .pitch q ∈ events ∧ AsksAny q.text.toList ∧ 0 ≤ q.degree ∧ q.degree < 12 ∧
      (∃ draw, Random.Words.value 2147483647 (-2147483648) draw = 2147483647) ∧
      ((Source.ofSeed 0).index 12).1 < 12 ∧ (Random.Words.place 12 13).toInt = 1 := by
  have hcheck : (readPattern "[(2147483647,-2147483648) ^?]").toOption.any (fun nodes =>
      (evaluate nodes (.ofOptions { scale := some (.steps []) }) (.ofSeed 0)).result.toOption.any fun events =>
        (events.filterMap Event.pitch?).map (·.text) = ["(2147483647,-2147483648)", "^?"]) = true := by decide +kernel
  obtain ⟨nodes, hread, hevents⟩ := eq_ok_of_any hcheck
  obtain ⟨events, hevents, htexts⟩ := eq_ok_of_any hevents
  obtain ⟨hwords, hindex, hplace, -, -, hwithin⟩ := random_degrees_in_bounds hread
  have hdrawn := hwithin nodes { scale := some (.steps []) } (.ofSeed 0) events rfl hevents
  have hpitch : ∀ text ∈ ["(2147483647,-2147483648)", "^?"], ∃ p, .pitch p ∈ events ∧ p.text = text ∧
      p.DrawnWithin (.steps []) := by
    rw [← of_decide_eq_true htexts]
    intro text htext
    obtain ⟨p, hp, rfl⟩ := List.mem_map.mp htext
    obtain ⟨e, he, heq⟩ := List.mem_filterMap.mp hp
    cases e with
    | pitch other =>
      obtain rfl := Option.some.inj heq
      exact ⟨other, he, rfl, (hdrawn _ he).here other (List.mem_singleton.mpr rfl)⟩
    | _ => cases heq
  obtain ⟨p, hp, hptext, hpdrawn⟩ := hpitch _ (List.mem_cons_self ..)
  obtain ⟨q, hq, hqtext, hqdrawn⟩ := hpitch "^?" (by decide)
  have hbetween : AsksBetween p.text.toList 2147483647 (-2147483648) := by
    rw [hptext]
    exact ⟨[], "2147483647".toList, "-2147483648".toList, by decide, by decide, by decide⟩
  have hany : AsksAny q.text.toList := by
    rw [hqtext]
    exact ⟨['^'], by decide⟩
  obtain ⟨hlow, hhigh⟩ := hpdrawn.between hbetween
  obtain ⟨hnonneg, hlt⟩ := hqdrawn.any hany
  obtain ⟨-, hall, -⟩ := hwords 2147483647 (-2147483648)
  obtain ⟨hbelow, -⟩ := hindex 12 (.ofSeed 0) (by decide)
  exact ⟨nodes, events, p, q, hread, hevents, hp, hbetween, hlow, hhigh, hq, hany, hnonneg, hlt,
    hall 2147483647 (by decide) (by decide), hbelow, hplace 12 13 (by decide) (by decide)⟩

end NumberedMelody
