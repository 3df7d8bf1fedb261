/-
  NumberedMelody/Proofs/Evaluation/SameEvents.lean
  ================================================
  **Evaluation respects the comparison of events.**  Events that compare equal
  may differ in the signs of zeros among their durations and among the steps of
  their scales.  Nothing that evaluation does to events brings the difference
  out (`Event.congruence_same`): a duration is divided by another one only where
  that is positive.
-/
import NumberedMelody.Event.Field
import NumberedMelody.Proofs.Evaluation.Congruence
import NumberedMelody.Proofs.Event.Sameness

namespace NumberedMelody

/-- Events that agree, their numbers compared. -/
inductive Event.Same : Event → Event → Prop
  | pitch {p p' : Pitch} (h : p.Same p') : Same (.pitch p) (.pitch p')
  | chord {c c' : Chord} (h : c.Same c') : Same (.chord c) (.chord c')
  | rest (text : String) (overrides : Overrides) {d d' : Option Float} (h : Option.Rel Binary64.Same d d') :
    Same (.rest ⟨text, overrides, d⟩) (.rest ⟨text, overrides, d'⟩)
  | sample (text name : String) {d d' : Option Float} (h : Option.Rel Binary64.Same d d') :
    Same (.sample ⟨text, name, d⟩) (.sample ⟨text, name, d'⟩)
  | function (text run : String) {d d' : Option Float} (h : Option.Rel Binary64.Same d d') :
    Same (.function ⟨text, run, d⟩) (.function ⟨text, run, d'⟩)
  | polyphony (text : String) {layers layers' : List (List Event)} (h : List.Forall₂ (List.Forall₂ Same) layers layers') :
    Same (.polyphony text layers) (.polyphony text layers')

namespace Event.Same

/-! ### Equal events -/

mutual

protected theorem refl : ∀ e : Event, e.Same e
  | .pitch p => .pitch (.refl p)
  | .chord c => .chord (.refl c)
  | .rest ⟨text, overrides, d⟩ => .rest text overrides (rel_refl .refl d)
  | .sample ⟨text, name, d⟩ => .sample text name (rel_refl .refl d)
  | .function ⟨text, run, d⟩ => .function text run (rel_refl .refl d)
  | .polyphony text layers => .polyphony text (refl_layers layers)

theorem refl_layer : ∀ layer : List Event, List.Forall₂ Event.Same layer layer
  | [] => .nil
  | e :: more => .cons (Same.refl e) (refl_layer more)

theorem refl_layers : ∀ layers : List (List Event), List.Forall₂ (List.Forall₂ Event.Same) layers layers
  | [] => .nil
  | layer :: more => .cons (refl_layer layer) (refl_layers more)

end

/-! ### Durations -/

mutual

theorem duration : ∀ {e e' : Event}, e.Same e' → Option.Rel Binary64.Same e.duration e'.duration
  | _, _, .pitch h => h.duration
  | _, _, .chord h => h.duration
  | _, _, .rest _ _ h => h
  | _, _, .sample _ _ h => h
  | _, _, .function _ _ h => h
  | _, _, .polyphony _ h => .some (Binary64.Same.greatest (layerDurations h))

theorem durations : ∀ {layer layer' : List Event}, List.Forall₂ Event.Same layer layer' →
    List.Forall₂ Binary64.Same (durations layer) (Event.durations layer')
  | _, _, .nil => .nil
  | _, _, .cons (a := e) (b := e') h hmore => by
    have hduration := duration h
    have hmore := durations hmore
    rw [Event.durations, Event.durations]
    generalize e.duration = d, e'.duration = d' at hduration
    cases hduration with
    | none => exact hmore
    | some hd => exact .cons hd hmore

theorem layerDurations : ∀ {layers layers' : List (List Event)}, List.Forall₂ (List.Forall₂ Event.Same) layers layers' →
    List.Forall₂ Binary64.Same (layerDurations layers) (Event.layerDurations layers')
  | _, _, .nil => .nil
  | _, _, .cons h hmore => .cons (Binary64.Same.sum (durations h)) (layerDurations hmore)

end

theorem longest {layers layers' : List (List Event)} (h : List.Forall₂ (List.Forall₂ Event.Same) layers layers') :
    Binary64.Same (longest layers) (Event.longest layers') := .greatest (layerDurations h)

mutual

theorem setDuration : ∀ {e e' : Event} {d d' : Float}, e.Same e' → Binary64.Same d d' →
    (e.setDuration d).Same (e'.setDuration d')
  | _, _, _, _, .pitch h, hd => .pitch (h.lasting (.some hd))
  | _, _, _, _, .chord h, hd => .chord (h.setDuration hd)
  | _, _, _, _, .rest _ _ _, hd => .rest _ _ (.some hd)
  | _, _, _, _, .sample _ _ _, hd => .sample _ _ (.some hd)
  | _, _, _, _, .function _ _ _, hd => .function _ _ (.some hd)
  | _, _, _, _, @Same.polyphony text layers _ h, hd => by
    have hlongest := longest h
    simp only [Event.setDuration]
    rw [← hlongest.isAtMost (.refl Quantity.zero)]
    cases hpositive : Quantity.isAtMost (Event.longest layers) Quantity.zero with
    | true => exact .polyphony text h
    | false =>
      -- layers that last some time last exactly as long as one another
      rw [← hlongest.eq_of_positive hpositive]
      exact .polyphony text (stretchLayers (hd.div _) h)

theorem stretchLayer : ∀ {factor factor' : Float} {layer layer' : List Event}, Binary64.Same factor factor' →
    List.Forall₂ Event.Same layer layer' →
    List.Forall₂ Event.Same (stretchLayer factor layer) (Event.stretchLayer factor' layer')
  | _, _, _, _, _, .nil => .nil
  | _, _, _, _, hfactor, .cons (a := e) (b := e') h hmore => by
    have hduration := duration h
    have hmore := stretchLayer hfactor hmore
    have hset := fun {d d' : Float} (hd : Binary64.Same d d') => setDuration h hd
    rw [Event.stretchLayer, Event.stretchLayer]
    generalize e.duration = d, e'.duration = d' at hduration
    cases hduration with
    | none => exact .cons h hmore
    | some hd => exact .cons (hset (hd.mul hfactor)) hmore

theorem stretchLayers : ∀ {factor factor' : Float} {layers layers' : List (List Event)}, Binary64.Same factor factor' →
    List.Forall₂ (List.Forall₂ Event.Same) layers layers' →
    List.Forall₂ (List.Forall₂ Event.Same) (stretchLayers factor layers) (Event.stretchLayers factor' layers')
  | _, _, _, _, _, .nil => .nil
  | _, _, _, _, hfactor, .cons h hmore => .cons (stretchLayer hfactor h) (stretchLayers hfactor hmore)

end

/-! ### Playing -/

theorem against {e e' : Event} (h : e.Same e') (o : Options) : (e.against o).Same (e'.against o) := by
  cases h with
  | pitch h => exact .pitch (h.resolve o)
  | chord h => exact .chord (h.resolve o)
  | rest text overrides h => exact .rest text overrides (rel_or h (.some (.refl _)))
  | sample text name h => exact .sample text name (rel_or h (.some (.refl _)))
  | function text run h => exact .function text run (rel_or h (.some (.refl _)))
  | polyphony text h => exact .polyphony text h

end Event.Same

/-! ### Fields -/

/-- Values that agree, their numbers compared. -/
inductive Value.Same : Value → Value → Prop
  | int (n : Int) : Same (.int n) (.int n)
  | float {x y : Float} (h : Binary64.Same x y) : Same (.float x) (.float y)
  | list {values values' : List Value} (h : List.Forall₂ Same values values') : Same (.list values) (.list values')
  | event {e e' : Event} (h : e.Same e') : Same (.event e) (.event e')
  | nothing : Same .nothing .nothing

theorem Value.Same.ofInt (n : Option Int) : (ofInt? n).Same (ofInt? n) := by
  cases n with
  | none => exact .nothing
  | some n => exact .int n

theorem Value.Same.ofFloat {x y : Option Float} (h : Option.Rel Binary64.Same x y) : (ofFloat? x).Same (ofFloat? y) := by
  cases h with
  | none => exact .nothing
  | some h => exact .float h

/-- Quarter notes of durations that compare equal. -/
theorem rel_beat {d d' : Option Float} (h : Option.Rel Binary64.Same d d') :
    Option.Rel Binary64.Same (d.map (· * 4.0)) (d'.map (· * 4.0)) := rel_mul h rfl

theorem Pitch.Same.field {p p' : Pitch} (h : p.Same p') (field : Field) : (p.field field).Same (p'.field field) := by
  cases field with
  | degree =>
    simp only [Pitch.field, h.degree]
    exact .int _
  | note =>
    simp only [Pitch.field, h.note]
    exact .ofInt _
  | duration => exact .ofFloat h.duration
  | beat => exact .ofFloat (rel_beat h.duration)
  | octave =>
    simp only [Pitch.field, h.octave]
    exact .ofInt _
  | frequency => exact .ofFloat h.frequency
  | bend =>
    simp only [Pitch.field, h.bend]
    exact .ofInt _
  | event => exact .event (.pitch h)

namespace Event.Same

mutual

/-- Asked for a field, events that compare equal answer alike. -/
theorem field (f : Field) : ∀ {e e' : Event}, e.Same e' → (e.field f).Same (e'.field f)
  | _, _, .pitch h => by
    have hfield := h.field f
    cases f <;> exact hfield
  | _, _, .chord h => by
    cases f with
    | event => exact .event (.chord h)
    | duration => exact .ofFloat h.duration
    | beat => exact .ofFloat (rel_beat h.duration)
    | _ => exact .list (List.rel_map (fun _ _ htone => htone.field _) h.tones)
  | _, _, .rest text overrides h => by
    cases f with
    | event => exact .event (.rest text overrides h)
    | duration => exact .ofFloat h
    | beat => exact .ofFloat (rel_beat h)
    | _ => exact .nothing
  | _, _, .sample text name h => by
    cases f with
    | event => exact .event (.sample text name h)
    | duration => exact .ofFloat h
    | beat => exact .ofFloat (rel_beat h)
    | _ => exact .nothing
  | _, _, .function text run h => by
    cases f with
    | event => exact .event (.function text run h)
    | duration => exact .ofFloat h
    | beat => exact .ofFloat (rel_beat h)
    | _ => exact .nothing
  | _, _, .polyphony text h => by
    cases f with
    | event => exact .event (.polyphony text h)
    | duration => exact .ofFloat (duration (.polyphony text h))
    | beat => exact .ofFloat (rel_beat (duration (.polyphony text h)))
    | _ => exact .list (layerFields _ h)

theorem fields (f : Field) : ∀ {layer layer' : List Event}, List.Forall₂ Event.Same layer layer' →
    List.Forall₂ Value.Same (fields f layer) (Event.fields f layer')
  | _, _, .nil => .nil
  | _, _, .cons h hmore => .cons (field f h) (fields f hmore)

theorem layerFields (f : Field) : ∀ {layers layers' : List (List Event)},
    List.Forall₂ (List.Forall₂ Event.Same) layers layers' →
    List.Forall₂ Value.Same (layerFields f layers) (Event.layerFields f layers')
  | _, _, .nil => .nil
  | _, _, .cons h hmore => .cons (.list (fields f h)) (layerFields f hmore)

end

end Event.Same

/-! ### Operations -/

namespace ListArithmetic

variable {p p' : Pitch} {e e' l l' i i' : Event} {tones tones' : List Pitch} {pool pool' : List Event}

theorem same_derive (h : p.Same p') (degree : Int) (o : Options) : (derive p degree o).Same (derive p' degree o) := by
  have hfresh : ({ p with
        text := toString degree, overrides := {}, degree, note := none, frequency := none, bend := none } : Pitch).Same
      { p' with text := toString degree, overrides := {}, degree, note := none, frequency := none, bend := none } :=
    { h with text := rfl, overrides := rfl, degree := rfl, note := rfl, frequency := .none, bend := rfl }
  exact (hfresh.adopt o).tune true

theorem same_deriveChord (h : List.Forall₂ Pitch.Same tones tones') (o : Options) :
    (deriveChord tones o).Same (deriveChord tones' o) := by
  have htexts : tones.map (·.text) = tones'.map (·.text) := by
    rw [← forall₂_eq, List.forall₂_map_left_iff, List.forall₂_map_right_iff]
    exact h.imp fun _ _ htone => htone.text
  have hchord (text : String) : ({ text, tones } : Chord).Same { text, tones := tones' } := ⟨rfl, rfl, h, rfl, .none⟩
  unfold deriveChord
  rw [htexts]
  exact .chord ((hchord _).resolve o)

theorem same_combinePitch (op : Arithmetic) (o : Options) (h : p.Same p') (degree : Int) :
    SameResult Pitch.Same (combinePitch op o p degree) (combinePitch op o p' degree) := by
  unfold combinePitch
  rw [h.degree]
  exact (SameResult.refl (fun _ => rfl) (op.apply p'.degree degree)).bind fun result _ heq =>
    heq ▸ .ok (same_derive h result o)

theorem same_tonesOf (h : e.Same e') : List.Forall₂ Pitch.Same (tonesOf e) (tonesOf e') := by
  cases h with
  | pitch h => exact .cons h .nil
  | chord h => exact h.tones
  | _ => exact .nil

theorem same_combinePair (op : Arithmetic) (o : Options) (hl : l.Same l') (hi : i.Same i') :
    SameResult Event.Same (combinePair op o l i) (combinePair op o l' i') := by
  -- tone by tone, unless both are single pitches
  have htones : SameResult Event.Same
      (do let tones ← (tonesOf l).mapM fun a => (tonesOf i).mapM fun b => combinePitch op o a b.degree
          return deriveChord tones.flatten o)
      (do let tones ← (tonesOf l').mapM fun a => (tonesOf i').mapM fun b => combinePitch op o a b.degree
          return deriveChord tones.flatten o) := by
    refine (SameResult.mapM (same_tonesOf hl) fun _ _ ha => SameResult.mapM (same_tonesOf hi) fun _ _ hb => ?_).bind
      fun _ _ h => .ok (same_deriveChord (List.rel_flatten h) o)
    rw [hb.degree]
    exact same_combinePitch op o ha _
  cases hl with
  | pitch ha =>
    cases hi with
    | pitch hb =>
      simp only [combinePair, hb.degree]
      exact (same_combinePitch op o ha _).bind fun _ _ h => .ok (.pitch h)
    | _ => exact htones
  | _ => exact htones

theorem same_mapPitch (expr : Expr) (o : Options) (h : p.Same p') :
    SameResult Pitch.Same (mapPitch expr o p) (mapPitch expr o p') := by
  unfold mapPitch
  rw [h.degree]
  exact (SameResult.refl (fun _ => rfl) (expr.eval _)).bind fun value _ heq => heq ▸ .ok (same_derive h _ o)

theorem same_mapEvent (expr : Expr) (o : Options) (h : e.Same e') :
    SameResult Event.Same (mapEvent expr o e) (mapEvent expr o e') := by
  cases h with
  | pitch h => exact (same_mapPitch expr o h).bind fun _ _ h => .ok (.pitch h)
  | chord h =>
    exact (SameResult.mapM h.tones fun _ _ htone => same_mapPitch expr o htone).bind
      fun _ _ h => .ok (same_deriveChord h o)
  | rest text overrides h => exact .ok (.rest text overrides h)
  | sample text name h => exact .ok (.sample text name h)
  | function text run h => exact .ok (.function text run h)
  | polyphony text h => exact .ok (.polyphony text h)

theorem rel_wrapped {α : Type} {R : α → α → Prop} {xs ys : List α} (h : List.Forall₂ R xs ys) (index : Int) :
    Option.Rel R (wrapped? xs index) (wrapped? ys index) := by
  unfold wrapped?
  rw [h.length_eq]
  exact rel_getElem? h _

theorem same_pickTone (h : List.Forall₂ Pitch.Same tones tones') (hindex : p.Same p') :
    Option.Rel Pitch.Same (pickTone tones p) (pickTone tones' p') := by
  have hpicked := rel_wrapped h p'.degree
  unfold pickTone
  rw [hindex.degree]
  generalize wrapped? tones p'.degree = picked, wrapped? tones' p'.degree = picked' at hpicked
  cases hpicked with
  | none => exact .none
  | some htone => exact .some (htone.lasting (rel_or hindex.duration htone.duration))

theorem same_pickVertical (hl : l.Same l') (hi : i.Same i') :
    List.Forall₂ Event.Same (pickVertical (tonesOf l) i) (pickVertical (tonesOf l') i') := by
  have htones := same_tonesOf hl
  cases hi with
  | pitch hindex => exact List.rel_map (fun _ _ htone => .pitch htone) (rel_toList (same_pickTone htones hindex))
  | chord h =>
    have hpicked : List.Forall₂ Pitch.Same _ _ :=
      List.rel_filterMap (fun _ _ hindex => same_pickTone htones hindex) h.tones
    have hsorted := forall₂_sortTones hpicked
    exact .cons (.chord ⟨h.text, rfl, hsorted, rfl, h.duration⟩) .nil
  | rest text overrides h => exact .cons (.rest text overrides h) .nil
  | sample text name h => exact .cons (.sample text name h) .nil
  | function text run h => exact .cons (.function text run h) .nil
  | polyphony text h => exact .cons (.polyphony text h) .nil

/-- The tones of the event that an index of a chord picks. -/
theorem same_picked (hpool : List.Forall₂ Event.Same pool pool') (hindex : p.Same p') :
    List.Forall₂ Pitch.Same (((wrapped? pool p.degree).map tonesOf).getD [])
      (((wrapped? pool' p'.degree).map tonesOf).getD []) := by
  have hevent := rel_wrapped hpool p'.degree
  rw [hindex.degree]
  generalize wrapped? pool _ = picked, wrapped? pool' _ = picked' at hevent
  cases hevent with
  | none => exact .nil
  | some he => exact same_tonesOf he

theorem same_pickHorizontal (hpool : List.Forall₂ Event.Same pool pool') (hi : i.Same i') :
    List.Forall₂ Event.Same (pickHorizontal pool i) (pickHorizontal pool' i') := by
  cases hi with
  | pitch h =>
    simp only [pickHorizontal, h.degree]
    exact rel_toList (rel_wrapped hpool _)
  | chord h =>
    have hpicked : List.Forall₂ Pitch.Same _ _ := List.rel_flatMap h.tones fun _ _ hindex => same_picked hpool hindex
    have hsorted := forall₂_sortTones hpicked
    exact .cons (.chord ⟨h.text, rfl, hsorted, rfl, rel_firstDuration hsorted⟩) .nil
  | rest text overrides h => exact .cons (.rest text overrides h) .nil
  | sample text name h => exact .cons (.sample text name h) .nil
  | function text run h => exact .cons (.function text run h) .nil
  | polyphony text h => exact .cons (.polyphony text h) .nil

end ListArithmetic

/-- **Evaluation respects the comparison of events.** -/
theorem Event.congruence_same : Event.Congruence Event.Same where
  refl := .refl
  text h := by
    cases h with
    | pitch h => exact h.text
    | chord h => exact h.text
    | _ => rfl
  degree h := by
    cases h with
    | pitch h => exact congrArg some h.degree
    | _ => rfl
  isPitched h := by cases h <;> rfl
  toneless h := isEmpty_eq_of_rel (ListArithmetic.same_tonesOf h)
  against h o := h.against o
  setDuration h d := h.setDuration (.refl d)
  together text h := .polyphony text h
  combined op o hl hr := ListArithmetic.same_combinePair op o hl hr
  mapped expr o h := ListArithmetic.same_mapEvent expr o h
  pickVertical hl hi := ListArithmetic.same_pickVertical hl hi
  pickHorizontal hpool hi := ListArithmetic.same_pickHorizontal hpool hi

end NumberedMelody
