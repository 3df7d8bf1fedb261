/-
  NumberedMelody/Proofs/Evaluation/Product.lean
  =============================================
  **Arithmetic between lists is a full product.**  Two nested loops over events,
  and two more over the tones of each pair, come to one pass over the pairs of
  events and one over the pairs of tones, in the same order.  So the place of
  every result is known, a tone can be told from the pair it is made of, and the
  first pair of tones that fails is the one whose failure is reported
  (`ListArithmetic.combine_full_product`).
-/
import Mathlib.Data.List.ProdSigma
import NumberedMelody.Proofs.Evaluation.Derived
import NumberedMelody.Proofs.Event.Resolved

namespace NumberedMelody

/-! ### Passes over lists that can fail -/

section Passes

variable {α β γ : Type}

/-- What a computation fails with, if it fails. -/
def failure? : Except Failure α → Option Failure
  | .error failure => some failure
  | .ok _ => none

theorem failure?_eq_some_iff {x : Except Failure α} {failure : Failure} :
    failure? x = some failure ↔ x = .error failure := by
  cases x <;> simp [failure?]

theorem failure?_eq_none_iff {x : Except Failure α} : failure? x = none ↔ ∃ a, x = .ok a := by
  cases x <;> simp [failure?]

theorem failure?_bind_ok (x : Except Failure α) (f : α → β) : failure? (x.bind fun a => .ok (f a)) = failure? x := by
  cases x <;> rfl

/-- A pass fails with the first failure in it. -/
theorem failure?_mapM (f : α → Except Failure β) (xs : List α) :
    failure? (xs.mapM f) = xs.findSome? fun x => failure? (f x) := by
  induction xs with
  | nil => rfl
  | cons x more ih =>
    rw [List.mapM_cons, List.findSome?_cons]
    cases hx : f x with
    | error failure => rfl
    | ok y => exact (failure?_bind_ok _ _).trans ih

/-- Nested passes are one pass over all pairs. -/
theorem mapM_product (f : α → β → Except Failure γ) (xs : List α) (ys : List β) :
    ((xs.mapM fun x => ys.mapM (f x)).bind fun rows => .ok rows.flatten) =
      (xs ×ˢ ys).mapM fun pair => f pair.1 pair.2 := by
  induction xs with
  | nil => rfl
  | cons x more ih =>
    have hrow : ((ys.map fun y => (x, y)).mapM fun pair => f pair.1 pair.2) = ys.mapM (f x) := List.mapM_map
    rw [List.mapM_cons, List.product_cons, List.mapM_append, hrow, ← ih]
    cases ys.mapM (f x) with
    | error failure => rfl
    | ok row => cases more.mapM fun x => ys.mapM (f x) <;> rfl

theorem findSome?_flatMap (f : α → List β) (g : β → Option γ) (xs : List α) :
    (xs.flatMap f).findSome? g = xs.findSome? fun x => (f x).findSome? g := by
  induction xs with
  | nil => rfl
  | cons x more ih =>
    rw [List.flatMap_cons, List.findSome?_append, List.findSome?_cons, ih]
    cases (f x).findSome? g <;> rfl

/-- The place of a pair among all pairs. -/
theorem getElem?_product {xs : List α} {ys : List β} {i j : Nat} {x : α} {y : β} (hx : xs[j]? = some x)
    (hy : ys[i]? = some y) : (xs ×ˢ ys)[j * ys.length + i]? = some (x, y) := by
  have hi : i < ys.length := (List.getElem?_eq_some_iff.mp hy).1
  induction xs generalizing j with
  | nil => simp at hx
  | cons other more ih =>
    rw [List.product_cons]
    cases j with
    | zero =>
      obtain rfl := Option.some.inj hx
      rw [Nat.zero_mul, Nat.zero_add, List.getElem?_append_left (by rwa [List.length_map]), List.getElem?_map, hy]
      rfl
    | succ j =>
      have hplace : (j + 1) * ys.length + i - ys.length = j * ys.length + i := by
        rw [Nat.succ_mul]
        omega
      have hpast : ys.length ≤ (j + 1) * ys.length + i := by
        rw [Nat.succ_mul]
        omega
      rw [List.getElem?_append_right (by rwa [List.length_map]), List.length_map, hplace]
      exact ih hx

end Passes

/-! ### Derived pitches -/

@[simp] theorem Overrides.empty_apply (o : Options) : ({} : Overrides).apply o = o := by
  simp [Overrides.apply]

namespace Pitch

/-- The note of the degree in key and scale, if there are any. -/
def noteAnew (p : Pitch) : Option Int :=
  match p.key, p.scale with
  | some key, some scale =>
    some (Binary64.floor32 (Harmony.exactNote key.toMidi p.degree scale (p.octave.getD 0) (p.modifier.getD 0)))
  | _, _ => none

/-- Tuning settles note, frequency and bend, and nothing else. -/
theorem tune_eq (p : Pitch) (force : Bool) :
    ∃ note frequency bend, p.tune force = { p with note, frequency, bend } := by
  unfold tune
  split
  · exact ⟨p.note, p.frequency, p.bend, rfl⟩
  · split
    · exact ⟨_, _, _, rfl⟩
    · exact ⟨p.note, p.frequency, p.bend, rfl⟩

theorem degree_resolve (p : Pitch) (o : Options) : (p.resolve o).degree = p.degree := by
  obtain ⟨note, frequency, bend, htune⟩ := (p.adopt o).tune_eq false
  rw [resolve, htune]
  rfl

/-- Without a note before, the note is that of the degree. -/
theorem note_tune {p : Pitch} (h : p.note = none) (force : Bool) :
    (p.tune force).note = (p.tune force).noteAnew := by
  have hanew : (p.tune force).noteAnew = p.noteAnew := by
    obtain ⟨note, frequency, bend, htune⟩ := p.tune_eq force
    rw [htune]
    rfl
  have hforced : (p.note.isSome && !force) = false := by rw [h]; rfl
  rw [hanew]
  unfold tune noteAnew
  rw [hforced]
  rcases p.key with _ | key
  · exact h
  · rcases p.scale with _ | scale
    · exact h
    · rfl

theorem tune_of_none {p : Pitch} (h : p.key = none ∨ p.scale = none) (force : Bool) : p.tune force = p := by
  unfold tune
  split
  · rfl
  · split
    · next hkey hscale => simp [hkey, hscale] at h
    · rfl

theorem tune_of_note {p : Pitch} (h : p.note.isSome = true) : p.tune false = p := if_pos (by simp [h])

/-- What is tuned is not tuned again. -/
theorem tune_tune (p : Pitch) : (p.tune true).tune false = p.tune true := by
  by_cases hnone : p.key = none ∨ p.scale = none
  · rw [tune_of_none hnone, tune_of_none hnone]
  · rw [not_or] at hnone
    obtain ⟨key, hkey⟩ := Option.ne_none_iff_exists'.mp hnone.1
    obtain ⟨scale, hscale⟩ := Option.ne_none_iff_exists'.mp hnone.2
    have hnote : (p.tune true).note.isSome = true := by
      unfold tune
      simp [hkey, hscale]
    exact tune_of_note hnote

end Pitch

namespace ListArithmetic

section Derive

variable (template : Pitch) (degree : Int) (o : Options)

/-- All of a derived pitch that does not come from tuning. -/
theorem derive_eq :
    ∃ note frequency bend,
      derive template degree o =
        { text := toString degree
          degree
          octave := template.octave.or (some o.octave)
          modifier := template.modifier.or (some o.modifier)
          duration := template.duration.or (some o.duration)
          key := template.key.or o.key
          scale := template.scale.or o.scale
          note
          frequency
          bend } := by
  obtain ⟨note, frequency, bend, htune⟩ := Pitch.tune_eq
    (Pitch.adopt
      { template with
        text := toString degree, overrides := {}, degree, note := none, frequency := none, bend := none } o) true
  refine ⟨note, frequency, bend, htune.trans ?_⟩
  simp [Pitch.adopt]

theorem degree_derive : (derive template degree o).degree = degree := by
  obtain ⟨note, frequency, bend, heq⟩ := derive_eq template degree o
  rw [heq]

theorem note_derive : (derive template degree o).note = (derive template degree o).noteAnew :=
  Pitch.note_tune rfl true

theorem resolve_derive : (derive template degree o).resolve o = derive template degree o := by
  have hadopt : (derive template degree o).adopt o = derive template degree o := by
    -- a key or a scale that the options did not have then, they do not have now
    obtain ⟨note, frequency, bend, heq⟩ := derive_eq template degree o
    rw [heq]
    simp [Pitch.adopt, Option.or_assoc]
  rw [Pitch.resolve, hadopt]
  exact Pitch.tune_tune _

end Derive

/-! ### Pairs of tones -/

variable {op : Arithmetic} {o : Options} {l r e : Event}

/-- The pairs of tones of two events, those of the left event outermost. -/
def tonePairs (l r : Event) : List (Pitch × Pitch) := tonesOf l ×ˢ tonesOf r

/-- What the operator fails with on the degrees of two tones. -/
def refusal? (op : Arithmetic) (pair : Pitch × Pitch) : Option Failure := failure? (op.apply pair.1.degree pair.2.degree)

/-- A tone made of two: the degree is that of the operator, all else is that of
    the left tone, or of the options where the left tone has nothing, and the
    note is computed from these. -/
structure Combined (op : Arithmetic) (o : Options) (a b tone : Pitch) : Prop where
  degree : op.apply a.degree b.degree = .ok tone.degree
  octave : tone.octave = a.octave.or (some o.octave)
  modifier : tone.modifier = a.modifier.or (some o.modifier)
  duration : tone.duration = a.duration.or (some o.duration)
  key : tone.key = a.key.or o.key
  scale : tone.scale = a.scale.or o.scale
  note : tone.note = tone.noteAnew

theorem combined_of_combinePitch {a b p : Pitch} (h : combinePitch op o a b.degree = .ok p) : Combined op o a b p := by
  obtain ⟨result, hresult, rfl⟩ := combinePitch_eq_ok h
  have hnote := note_derive a result o
  obtain ⟨note, frequency, bend, heq⟩ := derive_eq a result o
  rw [heq] at hnote ⊢
  exact ⟨hresult, rfl, rfl, rfl, rfl, rfl, hnote⟩

theorem resolve_of_combinePitch {a p : Pitch} {degree : Int} (h : combinePitch op o a degree = .ok p) :
    p.resolve o = p := by
  obtain ⟨result, -, rfl⟩ := combinePitch_eq_ok h
  exact resolve_derive a result o

/-! ### Pairs of events -/

/-- The tones that two events are combined into, in the order of the pairs. -/
def combineTones (op : Arithmetic) (o : Options) (l r : Event) : Except Failure (List Pitch) :=
  (tonePairs l r).mapM fun pair => combinePitch op o pair.1 pair.2.degree

theorem failure?_combineTones (op : Arithmetic) (o : Options) (l r : Event) :
    failure? (combineTones op o l r) = (tonePairs l r).findSome? (refusal? op) := by
  rw [combineTones, failure?_mapM]
  exact congrArg (List.findSome? · _) (funext fun pair => failure?_bind_ok _ _)

/-- Whether two events are combined into a pitch. -/
def ArePitches (l r : Event) : Prop := (∃ a, l = .pitch a) ∧ ∃ b, r = .pitch b

theorem combinePair_pitch (op : Arithmetic) (o : Options) (a b : Pitch) :
    combinePair op o (.pitch a) (.pitch b) = (combinePitch op o a b.degree).bind fun p => .ok (.pitch p) := rfl

theorem combineTones_pitch (op : Arithmetic) (o : Options) (a b : Pitch) :
    combineTones op o (.pitch a) (.pitch b) = (combinePitch op o a b.degree).bind fun p => .ok [p] := rfl

theorem combinePair_chord (op : Arithmetic) (o : Options) (h : ¬ArePitches l r) :
    combinePair op o l r = (combineTones op o l r).bind fun tones => .ok (deriveChord tones o) := by
  have htones : combinePair op o l r =
      ((tonesOf l).mapM fun a => (tonesOf r).mapM fun b => combinePitch op o a b.degree).bind
        fun rows => .ok (deriveChord rows.flatten o) := by
    unfold combinePair
    split
    · exact absurd ⟨⟨_, rfl⟩, _, rfl⟩ h
    · rfl
  rw [htones, combineTones, tonePairs, ← mapM_product (fun (a b : Pitch) => combinePitch op o a b.degree)]
  cases (tonesOf l).mapM fun a => (tonesOf r).mapM fun b => combinePitch op o a b.degree <;> rfl

theorem failure?_combinePair : failure? (combinePair op o l r) = (tonePairs l r).findSome? (refusal? op) := by
  rw [← failure?_combineTones op o]
  by_cases h : ArePitches l r
  · obtain ⟨⟨a, rfl⟩, b, rfl⟩ := h
    rw [combinePair_pitch, combineTones_pitch, failure?_bind_ok, failure?_bind_ok]
  · rw [combinePair_chord op o h, failure?_bind_ok]

/-- Tones of their own have nothing left to resolve, so a chord of them is sorted only. -/
theorem deriveChord_eq {tones : List Pitch} (h : ∀ tone ∈ tones, tone.resolve o = tone) :
    deriveChord tones o =
      .chord
        { text := String.join (tones.map (·.text))
          tones := sortTones tones
          duration := Chord.firstDuration (sortTones tones) } := by
  have hresolved : tones.map (Pitch.resolve · o) = tones := (List.map_congr_left h).trans (List.map_id tones)
  simp only [deriveChord, Chord.resolve, Overrides.empty_apply, hresolved, Option.getD_none, Chord.invert_zero,
    Chord.sort]

/-- What an event is to be that two others are combined into: a pitch for two
    pitches and else a chord, sorted, with a tone for every pair of tones. -/
structure MadeFrom (op : Arithmetic) (o : Options) (l r e : Event) : Prop where
  pitch_iff : (∃ p, e = .pitch p) ↔ ArePitches l r
  chord_iff : (∃ c, e = .chord c) ↔ ¬ArePitches l r
  count : (tonesOf e).length = (tonesOf l).length * (tonesOf r).length
  degrees :
    ((tonesOf e).map fun tone => Except.ok tone.degree).Perm
      ((tonePairs l r).map fun pair => op.apply pair.1.degree pair.2.degree)
  sorted : (tonesOf e).Pairwise NotAbove
  tones : ∃ tones, (tonesOf e).Perm tones ∧
    List.Forall₂ (fun pair tone => Combined op o pair.1 pair.2 tone) (tonePairs l r) tones

theorem combined_of_combineTones {tones : List Pitch} (h : combineTones op o l r = .ok tones) :
    List.Forall₂ (fun pair tone => Combined op o pair.1 pair.2 tone) (tonePairs l r) tones :=
  (forall₂_of_mapM_eq_ok h).imp fun _ _ => combined_of_combinePitch

theorem resolve_of_combineTones {tones : List Pitch} (h : combineTones op o l r = .ok tones) :
    ∀ tone ∈ tones, tone.resolve o = tone := by
  intro tone htone
  obtain ⟨pair, -, hpair⟩ := mem_of_mapM_eq_ok h tone htone
  exact resolve_of_combinePitch hpair

/-- Degrees and number of tones are read off the pairs. -/
theorem MadeFrom.of_tones {tones : List Pitch} (hpitch : (∃ p, e = .pitch p) ↔ ArePitches l r)
    (hchord : (∃ c, e = .chord c) ↔ ¬ArePitches l r) (hsorted : (tonesOf e).Pairwise NotAbove)
    (hperm : (tonesOf e).Perm tones) (h : combineTones op o l r = .ok tones) : MadeFrom op o l r e := by
  have hcombined := combined_of_combineTones h
  have hdegrees : (tones.map fun tone => Except.ok tone.degree) =
      (tonePairs l r).map fun pair => op.apply pair.1.degree pair.2.degree := by
    rw [eq_comm, ← List.forall₂_eq_eq_eq, List.forall₂_map_left_iff, List.forall₂_map_right_iff]
    exact hcombined.imp fun _ _ hpair => hpair.degree
  refine ⟨hpitch, hchord, ?_, ?_, hsorted, tones, hperm, hcombined⟩
  · rw [hperm.length_eq, ← hcombined.length_eq]
    exact List.length_product _ _
  · rw [← hdegrees]
    exact hperm.map _

theorem madeFrom_of_combinePair (h : combinePair op o l r = .ok e) : MadeFrom op o l r e := by
  by_cases hpitches : ArePitches l r
  · obtain ⟨⟨a, rfl⟩, b, rfl⟩ := hpitches
    rw [combinePair_pitch] at h
    obtain ⟨p, hp, h⟩ := bind_eq_ok.mp h
    obtain rfl := Except.ok.inj h
    have htones : combineTones op o (.pitch a) (.pitch b) = .ok [p] := by
      rw [combineTones_pitch, hp]
      rfl
    refine .of_tones ?_ ?_ (List.pairwise_singleton _ p) (.refl [p]) htones
    · simp [ArePitches]
    · simp [ArePitches]
  · rw [combinePair_chord op o hpitches] at h
    obtain ⟨tones, htones, h⟩ := bind_eq_ok.mp h
    obtain rfl := Except.ok.inj h
    rw [deriveChord_eq (resolve_of_combineTones htones)]
    refine .of_tones ?_ ?_ (pairwise_sortTones tones) (perm_sortTones tones) htones
    · simp [hpitches]
    · simp [hpitches]

/-! ### Whole lists -/

/-- The pairs of events with degrees, those of the right list outermost. -/
def eventPairs (left right : List Event) : List (Event × Event) :=
  (right.filter Event.isPitched) ×ˢ (left.filter Event.isPitched)

theorem combine_eq_mapM (op : Arithmetic) (o : Options) (left right : List Event) :
    combine op o left right = (eventPairs left right).mapM fun pair => combinePair op o pair.2 pair.1 :=
  mapM_product (fun r l => combinePair op o l r) _ _

theorem failure?_combine (op : Arithmetic) (o : Options) (left right : List Event) :
    failure? (combine op o left right) =
      ((eventPairs left right).flatMap fun pair => tonePairs pair.2 pair.1).findSome? (refusal? op) := by
  rw [combine_eq_mapM, failure?_mapM, findSome?_flatMap]
  exact congrArg (List.findSome? · _) (funext fun pair => failure?_combinePair)

/-- **Arithmetic between lists is a full product, the right list outermost.**  If
    no pair of tones fails, every pair of events has its event at its place; else
    the failure is that of the first pair of tones that fails. -/
theorem combine_full_product (op : Arithmetic) (o : Options) (left right : List Event) :
    let lefts := left.filter Event.isPitched
    let rights := right.filter Event.isPitched
    let pairs := (rights ×ˢ lefts).flatMap fun pair => tonesOf pair.2 ×ˢ tonesOf pair.1
    ((∀ pair ∈ pairs, ∃ degree, op.apply pair.1.degree pair.2.degree = .ok degree) →
      ∃ events, combine op o left right = .ok events ∧ events.length = lefts.length * rights.length ∧
        ∀ i j l r, lefts[i]? = some l → rights[j]? = some r →
          ∃ e, events[j * lefts.length + i]? = some e ∧ MadeFrom op o l r e) ∧
      ∀ before a b after failure, pairs = before ++ (a, b) :: after →
        (∀ pair ∈ before, ∃ degree, op.apply pair.1.degree pair.2.degree = .ok degree) →
          op.apply a.degree b.degree = .error failure → combine op o left right = .error failure := by
  intro lefts rights pairs
  have hfailure : failure? (combine op o left right) = pairs.findSome? (refusal? op) := failure?_combine op o left right
  constructor
  · intro hpairs
    -- what does not fail has a result: here it is shown that there is one
    have hnone : failure? (combine op o left right) = none := by
      rw [hfailure, List.findSome?_eq_none_iff]
      exact fun pair hpair => failure?_eq_none_iff.mpr (hpairs pair hpair)
    obtain ⟨events, hevents⟩ := failure?_eq_none_iff.mp hnone
    rw [combine_eq_mapM] at hevents
    have hmade := forall₂_of_mapM_eq_ok hevents
    refine ⟨events, by rw [combine_eq_mapM, hevents], ?_, ?_⟩
    · rw [← hmade.length_eq, Nat.mul_comm]
      exact List.length_product rights lefts
    · intro i j l r hl hr
      have hplace : (eventPairs left right)[j * lefts.length + i]? = some (r, l) := getElem?_product hr hl
      obtain ⟨hbefore, hpair⟩ := List.getElem?_eq_some_iff.mp hplace
      have hafter : j * lefts.length + i < events.length := hmade.length_eq ▸ hbefore
      refine ⟨events[j * lefts.length + i], List.getElem?_eq_getElem hafter, ?_⟩
      have hcombined := hmade.get hbefore hafter
      rw [List.get_eq_getElem, hpair] at hcombined
      exact madeFrom_of_combinePair hcombined
  · intro before a b after failure hsplit hbefore hrefused
    rw [← failure?_eq_some_iff, hfailure, List.findSome?_eq_some_iff]
    refine ⟨before, (a, b), after, hsplit, failure?_eq_some_iff.mpr hrefused, ?_⟩
    exact fun pair hpair => failure?_eq_none_iff.mpr (hbefore pair hpair)

/-- A pitch, a rest and a chord by one pitch: the rest is left out, the chord comes
    second, and by a zero the first pair of tones fails. -/
theorem pitch_and_chord_combine :
    let chord : Event := .chord { text := "02", tones := [.ofDegree 0, .ofDegree 2] }
    let left : List Event := [.pitch (.ofDegree 1), .rest { text := "r" }, chord]
    (∃ events, combine .add {} left [.pitch (.ofDegree 10)] = .ok events ∧ events.length = 2 ∧
        ∃ e, events[1]? = some e ∧ MadeFrom .add {} chord (.pitch (.ofDegree 10)) e) ∧
      combine .divide {} left [.pitch (.ofDegree 0)] = .error .divisionByZero := by
  intro chord left
  constructor
  · obtain ⟨hsucceeds, -⟩ := combine_full_product .add {} left [.pitch (.ofDegree 10)]
    obtain ⟨events, hevents, hlength, hplaces⟩ := hsucceeds fun pair hpair => by
      simp only [left, chord, List.filter, Event.isPitched, tonesOf, List.product_cons, List.map_cons, List.map_nil,
        List.nil_product, List.append_nil, List.cons_append, List.nil_append, List.flatMap_cons, List.flatMap_nil,
        List.mem_cons, List.not_mem_nil, or_false] at hpair
      rcases hpair with rfl | rfl | rfl <;> exact ⟨_, rfl⟩
    exact ⟨events, hevents, hlength, hplaces 1 0 chord _ rfl rfl⟩
  · obtain ⟨-, hfails⟩ := combine_full_product .divide {} left [.pitch (.ofDegree 0)]
    refine hfails [] (.ofDegree 1) (.ofDegree 0) _ .divisionByZero rfl ?_ rfl
    intro pair hpair
    cases hpair

end ListArithmetic

end NumberedMelody
