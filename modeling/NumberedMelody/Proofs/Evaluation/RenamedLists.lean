/-
  NumberedMelody/Proofs/Evaluation/RenamedLists.lean
  ==================================================
  **Numerals and lists of events by other names.**  The chord of a numeral is
  spelled by key and scale, and lists of events are combined and tuned anew.
  Where keys and scales get other names by which the same is heard, all of this
  commutes with the change of names.
-/
import Mathlib.Data.List.Basic
import NumberedMelody.Evaluation.ListArithmetic
import NumberedMelody.Proofs.Evaluation.Numerals
import NumberedMelody.Proofs.Event.Renaming

namespace NumberedMelody

namespace Renaming

variable (names : Renaming)

/-! ### Numerals and ranges -/

theorem tone_key_scale (o : Options) (key : Key) (scale : Scale) (note : Int) :
    RomanNumeral.tone (names.options o) (names.key key) (names.scale scale) note =
      names.pitch (RomanNumeral.tone o key scale note) := by
  unfold RomanNumeral.tone
  rw [spell_key_scale]
  rfl

def spelled (r : RomanNumeral) : RomanNumeral := { r with overrides := names.overrides r.overrides }

@[simp] theorem chordFor_spelled (r : RomanNumeral) (o : Options) :
    (names.spelled r).chordFor (names.options o) = (r.chordFor o).map names.chord := by
  unfold RomanNumeral.chordFor
  rcases hkey : o.key with _ | key
  · simp [spelled, options, hkey, Except.map]
  · rcases hscale : o.scale with _ | scale
    · simp [spelled, options, hkey, hscale, Except.map]
    · simp only [spelled, options, hkey, hscale, Option.map_some]
      rcases Harmony.romanValue? r.symbols with _ | degree
      · rfl
      · simp only [degreeChord_scale, toMidi_key, span_scale]
        refine congrArg Except.ok ?_
        rw [← resolve_chord]
        simp only [chord, List.map_map, Function.comp_def, ← tone_key_scale, overrides_empty]
        simp only [options, hkey, hscale, Option.map_some]

/-- A numeral with what it keeps, both by other names. -/
def numeral (k : KeptNumeral) : KeptNumeral where
  numeral := names.spelled k.numeral
  kept := k.kept.map fun (since, c) => (names.options since, names.chord c)
  faithful := by
    intro since c hkept
    simp only [Option.map_eq_some_iff, Prod.exists] at hkept
    obtain ⟨since, c, hkept, ⟨⟩⟩ := hkept
    rw [chordFor_spelled, k.faithful hkept]
    rfl

@[simp] theorem keptFor_numeral (k : KeptNumeral) (o : Options) :
    (names.numeral k).keptFor (names.options o) = (k.keptFor o).map names.chord := by
  simp only [KeptNumeral.keptFor, numeral, Option.filter_map, Option.map_map, Function.comp_def, beq_options]

@[simp] theorem answerFor_numeral (k : KeptNumeral) (o : Options) :
    (names.numeral k).answerFor (names.options o) =
      ((k.answerFor o).1.map names.chord, names.numeral (k.answerFor o).2) := by
  have hkept := names.keptFor_numeral k o
  have hchord := names.chordFor_spelled k.numeral o
  rcases hfound : k.keptFor o with _ | c
  · rw [hfound, Option.map_none] at hkept
    rcases hresult : k.numeral.chordFor o with failure | c
    · rw [hresult] at hchord
      rw [KeptNumeral.answerFor_of_failed hkept hchord, KeptNumeral.answerFor_of_failed hfound hresult]
      rfl
    · rw [hresult] at hchord
      rw [KeptNumeral.answerFor_of_spelled hkept hchord, KeptNumeral.answerFor_of_spelled hfound hresult]
      rfl
  · rw [hfound, Option.map_some] at hkept
    rw [KeptNumeral.answerFor_of_kept hkept, KeptNumeral.answerFor_of_kept hfound]
    rfl

theorem rangePitches_overrides (o : Overrides) (first last : Int) (ambient : Options) :
    rangePitches (names.overrides o) first last (names.options ambient) =
      (rangePitches o first last ambient).map names.pitch := by
  unfold rangePitches
  rw [List.map_map]
  refine List.map_congr_left ?_
  intro degree _
  exact names.generated_pitch degree _ { o with octave := some (o.octave.getD ambient.octave) } ambient

/-! ### Lists of events -/

section ListArithmetic

open ListArithmetic

theorem derive_pitch (template : Pitch) (degree : Int) (o : Options) :
    derive (names.pitch template) degree (names.options o) = names.pitch (derive template degree o) := by
  unfold derive
  rw [← tune_pitch, ← adopt_pitch]
  rfl

theorem deriveChord_map (tones : List Pitch) (o : Options) :
    deriveChord (tones.map names.pitch) (names.options o) = names.event (deriveChord tones o) := by
  have htexts : (tones.map names.pitch).map (·.text) = tones.map (·.text) := by
    rw [List.map_map]
    rfl
  unfold deriveChord
  rw [htexts, event, ← resolve_chord]
  rfl

/-- What is done to each of a list is done to each of it by other names. -/
theorem mapM_map {α α' β β' : Type} {f : α → α'} {g : β → β'} {act : α → Except Failure β}
    {act' : α' → Except Failure β'} (h : ∀ a, act' (f a) = (act a).map g) (xs : List α) :
    (xs.map f).mapM act' = (xs.mapM act).map (List.map g) := by
  induction xs with
  | nil => rfl
  | cons a xs ih =>
    rw [List.map_cons, List.mapM_cons, List.mapM_cons, h a, ih]
    rcases act a with failure | b
    · rfl
    · rcases xs.mapM act with failure | others <;> rfl

theorem combinePitch_pitch (op : Arithmetic) (o : Options) (a : Pitch) (degree : Int) :
    combinePitch op (names.options o) (names.pitch a) degree = (combinePitch op o a degree).map names.pitch := by
  unfold combinePitch
  rw [show (names.pitch a).degree = a.degree from rfl]
  rcases op.apply a.degree degree with failure | result
  · rfl
  · exact congrArg Except.ok (names.derive_pitch a result o)

@[simp] theorem tonesOf_event (e : Event) : tonesOf (names.event e) = (tonesOf e).map names.pitch := by cases e <;> rfl

theorem combineTones_event (op : Arithmetic) (o : Options) (left right : Event) :
    (do
      let tones ← (tonesOf (names.event left)).mapM fun a =>
        (tonesOf (names.event right)).mapM fun (b : Pitch) => combinePitch op (names.options o) a b.degree
      return deriveChord tones.flatten (names.options o)) =
    (do
      let tones ← (tonesOf left).mapM fun a => (tonesOf right).mapM fun (b : Pitch) => combinePitch op o a b.degree
      return deriveChord tones.flatten o).map names.event := by
  have hrow : ∀ a, (tonesOf (names.event right)).mapM
        (fun (b : Pitch) => combinePitch op (names.options o) (names.pitch a) b.degree) =
      ((tonesOf right).mapM fun (b : Pitch) => combinePitch op o a b.degree).map (List.map names.pitch) := by
    intro a
    rw [tonesOf_event]
    exact mapM_map (f := names.pitch) (fun b => names.combinePitch_pitch op o a b.degree) _
  rw [tonesOf_event names left, mapM_map hrow]
  rcases (tonesOf left).mapM fun a => (tonesOf right).mapM fun (b : Pitch) => combinePitch op o a b.degree with
    failure | tones
  · rfl
  · refine congrArg Except.ok ?_
    rw [← List.map_flatten]
    exact names.deriveChord_map _ o

theorem combinePair_event (op : Arithmetic) (o : Options) (left right : Event) :
    combinePair op (names.options o) (names.event left) (names.event right) =
      (combinePair op o left right).map names.event := by
  have htones := names.combineTones_event op o left right
  cases left with
  | pitch a =>
    cases right with
    | pitch b =>
      change (do let p ← combinePitch op (names.options o) (names.pitch a) b.degree; return Event.pitch p) = _
      rw [combinePitch_pitch]
      change _ = (do let p ← combinePitch op o a b.degree; return Event.pitch p).map names.event
      rcases combinePitch op o a b.degree with failure | p <;> rfl
    | _ => exact htones
  | _ => exact htones

theorem filter_isPitched (events : List Event) :
    (events.map names.event).filter Event.isPitched = (events.filter Event.isPitched).map names.event := by
  rw [List.filter_map]
  simp only [Function.comp_def, isPitched_event]

theorem combine_map (op : Arithmetic) (o : Options) (left right : List Event) :
    combine op (names.options o) (left.map names.event) (right.map names.event) =
      (combine op o left right).map (List.map names.event) := by
  have hrow : ∀ r, ((left.filter Event.isPitched).map names.event).mapM
        (fun l => combinePair op (names.options o) l (names.event r)) =
      ((left.filter Event.isPitched).mapM fun l => combinePair op o l r).map (List.map names.event) :=
    fun r => mapM_map (fun l => names.combinePair_event op o l r) _
  unfold combine
  simp only [filter_isPitched]
  rw [mapM_map hrow]
  rcases (right.filter Event.isPitched).mapM fun r =>
    (left.filter Event.isPitched).mapM fun l => combinePair op o l r with failure | rows
  · rfl
  · exact congrArg Except.ok List.map_flatten.symm

theorem wrapped?_map {α β : Type} (f : α → β) (xs : List α) (index : Int) :
    wrapped? (xs.map f) index = (wrapped? xs index).map f := by
  unfold wrapped?
  rw [List.length_map, List.getElem?_map]

theorem pickTone_map (tones : List Pitch) (index : Pitch) :
    pickTone (tones.map names.pitch) (names.pitch index) = (pickTone tones index).map names.pitch := by
  unfold pickTone
  rw [wrapped?_map, Option.map_map, Option.map_map]
  rfl

theorem pickVertical_event (tones : List Pitch) (index : Event) :
    pickVertical (tones.map names.pitch) (names.event index) = (pickVertical tones index).map names.event := by
  cases index with
  | pitch index =>
    simp only [event, pickVertical, pickTone_map]
    rcases pickTone tones index with _ | tone <;> rfl
  | chord c =>
    have htones : (c.tones.map names.pitch).filterMap (pickTone (tones.map names.pitch)) =
        (c.tones.filterMap (pickTone tones)).map names.pitch := by
      rw [List.filterMap_map, List.map_filterMap]
      exact List.filterMap_congr fun index _ => names.pickTone_map tones index
    simp only [event, pickVertical, chord, htones, Chord.sort, sortTones_map, List.map_cons, List.map_nil,
      overrides_empty]
  | _ => rfl

theorem vertical_map (left indices : List Event) :
    vertical (left.map names.event) (indices.map names.event) = (vertical left indices).map names.event := by
  have hpools : ((left.map names.event).map tonesOf).filter (!·.isEmpty) =
      ((left.map tonesOf).filter (!·.isEmpty)).map (List.map names.pitch) := by
    rw [List.map_map, show tonesOf ∘ names.event = List.map names.pitch ∘ tonesOf from funext names.tonesOf_event,
      ← List.map_map, List.filter_map]
    simp only [Function.comp_def, List.isEmpty_map]
  unfold vertical
  rw [hpools, List.flatMap_map, List.map_flatMap]
  refine List.flatMap_congr ?_
  intro tones _
  rw [List.flatMap_map, List.map_flatMap]
  exact List.flatMap_congr fun index _ => names.pickVertical_event tones index

theorem pickHorizontal_event (pool : List Event) (index : Event) :
    pickHorizontal (pool.map names.event) (names.event index) = (pickHorizontal pool index).map names.event := by
  cases index with
  | pitch index =>
    simp only [event, pickHorizontal, wrapped?_map]
    rw [← Option.toList_map]
    rfl
  | chord c =>
    have htones : (c.tones.map names.pitch).flatMap
          (fun index => ((wrapped? (pool.map names.event) index.degree).map tonesOf).getD []) =
        (c.tones.flatMap fun index => ((wrapped? pool index.degree).map tonesOf).getD []).map names.pitch := by
      rw [List.flatMap_map, List.map_flatMap]
      refine List.flatMap_congr ?_
      intro index _
      rw [wrapped?_map, show (names.pitch index).degree = index.degree from rfl]
      rcases wrapped? pool index.degree with _ | picked
      · rfl
      · exact names.tonesOf_event picked
    simp only [event, pickHorizontal, chord, htones, Chord.sort, sortTones_map, firstDuration_map, List.map_cons,
      List.map_nil, overrides_empty]
  | _ => rfl

theorem horizontal_map (pool indices : List Event) :
    horizontal (pool.map names.event) (indices.map names.event) = (horizontal pool indices).map names.event := by
  unfold horizontal
  rw [List.isEmpty_map, apply_ite (List.map names.event), List.flatMap_map, List.map_flatMap]
  simp only [pickHorizontal_event, List.map_nil]

theorem mapPitch_pitch (expr : Expr) (o : Options) (p : Pitch) :
    mapPitch expr (names.options o) (names.pitch p) = (mapPitch expr o p).map names.pitch := by
  unfold mapPitch
  rw [show (names.pitch p).degree = p.degree from rfl]
  rcases expr.eval (some (Float.ofInt p.degree)) with failure | value
  · rfl
  · exact congrArg Except.ok (names.derive_pitch p _ o)

theorem mapEvent_event (expr : Expr) (o : Options) (e : Event) :
    mapEvent expr (names.options o) (names.event e) = (mapEvent expr o e).map names.event := by
  cases e with
  | pitch p =>
    simp only [event, mapEvent, mapPitch_pitch]
    rcases mapPitch expr o p with failure | p <;> rfl
  | chord c =>
    simp only [event, mapEvent, chord, mapM_map (names.mapPitch_pitch expr o)]
    rcases c.tones.mapM (mapPitch expr o) with failure | tones
    · rfl
    · exact congrArg Except.ok (names.deriveChord_map tones o)
  | _ => rfl

theorem mapEvents_map (expr : Expr) (o : Options) (events : List Event) :
    mapEvents expr (names.options o) (events.map names.event) =
      (mapEvents expr o events).map (List.map names.event) :=
  mapM_map (names.mapEvent_event expr o) events

end ListArithmetic

end Renaming

end NumberedMelody
