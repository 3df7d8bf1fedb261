/-
  NumberedMelody/Proofs/Evaluation/Congruence.lean
  ================================================
  **Events that are taken for one another.**  A relation between events is a
  congruence if whatever evaluation does to one event and to the other, the
  outcomes are related again (`Event.Congruence`).  Operations on lists of
  events, and the sharing out of durations, then keep lists of events related.
-/
import Mathlib.Data.List.Forall2
import NumberedMelody.Evaluation.Leaf
import NumberedMelody.Evaluation.ListArithmetic
import NumberedMelody.Evaluation.Step

namespace NumberedMelody

/-! ### Results that agree -/

/-- The same failure, or values that are related. -/
inductive SameResult {α β : Type} (R : α → β → Prop) : Except Failure α → Except Failure β → Prop
  | ok {a : α} {b : β} (h : R a b) : SameResult R (.ok a) (.ok b)
  | error (failure : Failure) : SameResult R (.error failure) (.error failure)

namespace SameResult

variable {α β α' β' : Type} {R : α → β → Prop} {S : α' → β' → Prop} {x : Except Failure α} {y : Except Failure β}

theorem bind (h : SameResult R x y) {f : α → Except Failure α'} {g : β → Except Failure β'}
    (hfg : ∀ a b, R a b → SameResult S (f a) (g b)) : SameResult S (x >>= f) (y >>= g) := by
  cases h with
  | ok h => exact hfg _ _ h
  | error failure => exact .error failure

theorem map (h : SameResult R x y) {f : α → α'} {g : β → β'} (hfg : ∀ a b, R a b → S (f a) (g b)) :
    SameResult S (x.map f) (y.map g) := by
  cases h with
  | ok h => exact .ok (hfg _ _ h)
  | error failure => exact .error failure

theorem mono {S : α → β → Prop} (h : SameResult R x y) (hRS : ∀ a b, R a b → S a b) : SameResult S x y := by
  cases h with
  | ok h => exact .ok (hRS _ _ h)
  | error failure => exact .error failure

theorem refl {R : α → α → Prop} (hR : ∀ a, R a a) (x : Except Failure α) : SameResult R x x := by
  cases x with
  | ok a => exact .ok (hR a)
  | error failure => exact .error failure

theorem exists_of_ok (h : SameResult R x y) {a : α} (hx : x = .ok a) : ∃ b, y = .ok b ∧ R a b := by
  cases h with
  | ok h =>
    obtain rfl := Except.ok.inj hx
    exact ⟨_, rfl, h⟩
  | error failure => cases hx

theorem eq {x y : Except Failure α} (h : SameResult (· = ·) x y) : x = y := by
  cases h with
  | ok h => rw [h]
  | error => rfl

theorem mapM {f : α → Except Failure α'} {g : β → Except Failure β'} {xs : List α} {ys : List β}
    (h : List.Forall₂ R xs ys) (hfg : ∀ a b, R a b → SameResult S (f a) (g b)) :
    SameResult (List.Forall₂ S) (xs.mapM f) (ys.mapM g) := by
  induction h with
  | nil => exact .ok .nil
  | cons hhead _ ih =>
    rw [List.mapM_cons, List.mapM_cons]
    exact (hfg _ _ hhead).bind fun _ _ hfirst => ih.bind fun _ _ hrest => .ok (.cons hfirst hrest)

end SameResult

/-! ### Lists that are related place by place -/

theorem forall₂_eq {α : Type} {xs ys : List α} : List.Forall₂ (· = ·) xs ys ↔ xs = ys := by
  rw [List.forall₂_eq_eq_eq]

section Lists

variable {α : Type} {R : α → α → Prop} {xs xs' : List α}

theorem rel_getElem? (h : List.Forall₂ R xs xs') (i : Nat) : Option.Rel R xs[i]? xs'[i]? := by
  induction h generalizing i with
  | nil => exact .none
  | cons hx _ ih =>
    cases i with
    | zero => exact .some hx
    | succ i => exact ih i

theorem rel_set (h : List.Forall₂ R xs xs') (i : Nat) {a a' : α} (ha : R a a') :
    List.Forall₂ R (xs.set i a) (xs'.set i a') := by
  induction h generalizing i with
  | nil => exact .nil
  | cons hx hmore ih =>
    cases i with
    | zero => exact .cons ha hmore
    | succ i => exact .cons hx (ih i)

theorem rel_toList {a a' : Option α} (h : Option.Rel R a a') : List.Forall₂ R a.toList a'.toList := by
  cases h with
  | none => exact .nil
  | some h => exact .cons h .nil

theorem isEmpty_eq_of_rel (h : List.Forall₂ R xs xs') : xs.isEmpty = xs'.isEmpty := by
  cases h <;> rfl

end Lists

/-! ### Relations that evaluation respects -/

/-- Whatever evaluation does to related events, it is done alike, and the
    outcomes are related. -/
structure Event.Congruence (E : Event → Event → Prop) : Prop where
  refl : ∀ e, E e e
  text : ∀ {e e'}, E e e' → e.text = e'.text
  degree : ∀ {e e'}, E e e' → e.pitch?.map Pitch.degree = e'.pitch?.map Pitch.degree
  isPitched : ∀ {e e'}, E e e' → e.isPitched = e'.isPitched
  toneless : ∀ {e e'}, E e e' → (ListArithmetic.tonesOf e).isEmpty = (ListArithmetic.tonesOf e').isEmpty
  against : ∀ {e e'}, E e e' → ∀ o, E (e.against o) (e'.against o)
  setDuration : ∀ {e e'}, E e e' → ∀ d, E (e.setDuration d) (e'.setDuration d)
  together : ∀ {layers layers'} text, List.Forall₂ (List.Forall₂ E) layers layers' →
    E (.polyphony text layers) (.polyphony text layers')
  combined : ∀ {l l' r r'} op o, E l l' → E r r' →
    SameResult E (ListArithmetic.combinePair op o l r) (ListArithmetic.combinePair op o l' r')
  mapped : ∀ {e e'} expr o, E e e' → SameResult E (ListArithmetic.mapEvent expr o e) (ListArithmetic.mapEvent expr o e')
  pickVertical : ∀ {l l' i i'}, E l l' → E i i' → List.Forall₂ E
    (ListArithmetic.pickVertical (ListArithmetic.tonesOf l) i) (ListArithmetic.pickVertical (ListArithmetic.tonesOf l') i')
  pickHorizontal : ∀ {pool pool' i i'}, List.Forall₂ E pool pool' → E i i' →
    List.Forall₂ E (ListArithmetic.pickHorizontal pool i) (ListArithmetic.pickHorizontal pool' i')

/-- Nothing else is the same event. -/
theorem Event.congruence_eq : Event.Congruence (· = ·) where
  refl _ := rfl
  text h := by rw [h]
  degree h := by rw [h]
  isPitched h := by rw [h]
  toneless h := by rw [h]
  against h _ := by rw [h]
  setDuration h _ := by rw [h]
  together text h := by
    obtain rfl : _ = _ := forall₂_eq.mp (h.imp fun _ _ => forall₂_eq.mp)
    rfl
  combined op o hl hr := by
    rw [hl, hr]
    exact .refl (fun _ => rfl) _
  mapped expr o h := by
    rw [h]
    exact .refl (fun _ => rfl) _
  pickVertical hl hi := by
    rw [hl, hi]
    exact forall₂_eq.mpr rfl
  pickHorizontal hpool hi := by
    rw [forall₂_eq.mp hpool, hi]
    exact forall₂_eq.mpr rfl

/-! ### Steps -/

/-- Steps with related events, and the same budgets. -/
inductive Step.Rel (E : Event → Event → Prop) : Step → Step → Prop
  | ready {e e' : Event} (h : E e e') : Rel E (.ready e) (.ready e')
  | subdivided (budget : Float) {steps steps' : List Step} (h : List.Forall₂ (Rel E) steps steps') :
    Rel E (.subdivided budget steps) (.subdivided budget steps')

namespace Step

variable {E : Event → Event → Prop}

mutual

theorem Rel.refl (hE : Event.Congruence E) : ∀ step : Step, step.Rel E step
  | .ready e => .ready (hE.refl e)
  | .subdivided budget steps => .subdivided budget (Rel.refl_all hE steps)

theorem Rel.refl_all (hE : Event.Congruence E) : ∀ steps : List Step, List.Forall₂ (Rel E) steps steps
  | [] => .nil
  | step :: more => .cons (Rel.refl hE step) (Rel.refl_all hE more)

end

mutual

theorem Rel.eventsLasting (hE : Event.Congruence E) (d : Float) :
    ∀ {step step' : Step}, step.Rel E step' →
      SameResult (List.Forall₂ E) (eventsLasting d step) (Step.eventsLasting d step')
  | _, _, .ready h => .ok (.cons (hE.setDuration h d) .nil)
  | _, _, .subdivided _ .nil => .error _
  | _, _, .subdivided _ (.cons hstep hmore) => by
    rw [Step.eventsLasting, Step.eventsLasting, hmore.length_eq]
    exact eventsEachLasting hE _ (.cons hstep hmore)

theorem Rel.eventsEachLasting (hE : Event.Congruence E) (d : Float) :
    ∀ {steps steps' : List Step}, List.Forall₂ (Rel E) steps steps' →
      SameResult (List.Forall₂ E) (eventsEachLasting d steps) (Step.eventsEachLasting d steps')
  | _, _, .nil => .ok .nil
  | _, _, .cons hstep hmore => by
    rw [Step.eventsEachLasting, Step.eventsEachLasting]
    exact (eventsLasting hE d hstep).bind fun _ _ hfirst =>
      (eventsEachLasting hE d hmore).bind fun _ _ hothers => .ok (List.rel_append hfirst hothers)

end

theorem Rel.events (hE : Event.Congruence E) {step step' : Step} (h : step.Rel E step') :
    SameResult (List.Forall₂ E) step.events step'.events := by
  cases h with
  | ready h => exact .ok (.cons h .nil)
  | subdivided budget h => exact Rel.eventsLasting hE budget (.subdivided budget h)

/-- A step that is a single ready pitch is one of the same degree. -/
theorem Rel.degree (hE : Event.Congruence E) {step step' : Step} (h : step.Rel E step') :
    step.pitch?.map Pitch.degree = step'.pitch?.map Pitch.degree := by
  cases h with
  | ready h => exact hE.degree h
  | subdivided budget h => rfl

/-- The first ready pitches are of the same degree. -/
theorem Rel.firstDegree (hE : Event.Congruence E) {steps steps' : List Step} (h : List.Forall₂ (Rel E) steps steps') :
    (steps.findSome? pitch?).map Pitch.degree = (steps'.findSome? pitch?).map Pitch.degree := by
  induction h with
  | nil => rfl
  | @cons step step' _ _ hstep _ ih =>
    have hdegree := hstep.degree hE
    rw [List.findSome?_cons, List.findSome?_cons]
    rcases hfirst : step.pitch? with _ | p <;> rcases hfirst' : step'.pitch? with _ | p'
    · exact ih
    · simp [hfirst, hfirst'] at hdegree
    · simp [hfirst, hfirst'] at hdegree
    · simpa only [hfirst, hfirst'] using hdegree

end Step

namespace Event.Congruence

variable {E : Event → Event → Prop} (hE : Event.Congruence E)

include hE

theorem assignDurations {steps steps' : List Step} (h : List.Forall₂ (Step.Rel E) steps steps') :
    SameResult (List.Forall₂ E) (assignDurations steps) (NumberedMelody.assignDurations steps') := by
  induction h with
  | nil => exact .ok .nil
  | cons hstep _ ih =>
    rw [NumberedMelody.assignDurations, NumberedMelody.assignDurations]
    exact (hstep.events hE).bind fun _ _ hfirst => ih.bind fun _ _ hothers => .ok (List.rel_append hfirst hothers)

theorem refl_list (events : List Event) : List.Forall₂ E events events := List.forall₂_same.mpr fun e _ => hE.refl e

/-! ### Operations on lists -/

section Lists

open ListArithmetic

variable {left left' right right' : List Event}

theorem pitched (h : List.Forall₂ E left left') :
    List.Forall₂ E (left.filter Event.isPitched) (left'.filter Event.isPitched) :=
  List.rel_filter (fun _ _ he => Bool.eq_iff_iff.mp (hE.isPitched he)) h

theorem combine (hleft : List.Forall₂ E left left') (hright : List.Forall₂ E right right') (op : Arithmetic)
    (o : Options) : SameResult (List.Forall₂ E) (combine op o left right) (ListArithmetic.combine op o left' right') := by
  have hrows := SameResult.mapM (hE.pitched hright) fun _ _ hr =>
    SameResult.mapM (hE.pitched hleft) fun _ _ hl => hE.combined op o hl hr
  exact hrows.bind fun _ _ h => .ok (List.rel_flatten h)

theorem mapEvents (h : List.Forall₂ E left left') (expr : Expr) (o : Options) :
    SameResult (List.Forall₂ E) (mapEvents expr o left) (ListArithmetic.mapEvents expr o left') :=
  .mapM h fun _ _ he => hE.mapped expr o he

/-- The chords on the left without tones are left out, and what every index picks
    from the others is put together. -/
theorem vertical (hleft : List.Forall₂ E left left') (hright : List.Forall₂ E right right') :
    List.Forall₂ E (vertical left right) (ListArithmetic.vertical left' right') := by
  unfold ListArithmetic.vertical
  induction hleft with
  | nil => exact .nil
  | @cons l l' _ _ hl _ ih =>
    simp only [List.map_cons, List.filter_cons, hE.toneless hl]
    split
    · rw [List.flatMap_cons, List.flatMap_cons]
      exact List.rel_append (List.rel_flatMap hright fun _ _ hi => hE.pickVertical hl hi) ih
    · exact ih

theorem horizontal (hleft : List.Forall₂ E left left') (hright : List.Forall₂ E right right') :
    List.Forall₂ E (horizontal left right) (ListArithmetic.horizontal left' right') := by
  have hempty : left.isEmpty = left'.isEmpty := by cases hleft <;> rfl
  unfold ListArithmetic.horizontal
  rw [hempty]
  split
  · exact .nil
  · exact List.rel_flatMap hright fun _ _ hi => hE.pickHorizontal hleft hi

end Lists

end Event.Congruence

end NumberedMelody
