/-
  NumberedMelody/Proofs/Evaluation/Blame.lean
  ===========================================
  **How single rules fail.**  A computation blames a class of failures when it
  can fail in no other way.  Arithmetic, sharing out durations and the
  operations between lists blame `Failure.Ordinary`: they need neither a numeral
  nor a name for it.  A numeral needs a key, a scale, and symbols with a value.
-/
import NumberedMelody.Evaluation.Leaf
import NumberedMelody.Evaluation.ListArithmetic
import NumberedMelody.Proofs.Evaluation.Sharing

namespace NumberedMelody

/-- Ways to fail that have nothing to do with numerals and names. -/
inductive Failure.Ordinary : Failure → Prop where
  | emptySubdivision : Ordinary .emptySubdivision
  | noNumber (text : String) : Ordinary (.noNumber text)
  | noOnset (text : String) : Ordinary (.noOnset text)
  | divisionByZero : Ordinary .divisionByZero
  | overflow (a : Int) (op : Arithmetic) (b : Int) : Ordinary (.overflow a op b)
  | unboundVariable : Ordinary .unboundVariable

/-- What fails at all fails in a way of `F`. -/
def Blames {α : Type} (F : Failure → Prop) (x : Except Failure α) : Prop := ∀ failure, x = .error failure → F failure

namespace Blames

variable {α β : Type} {F G : Failure → Prop} {x : Except Failure α}

theorem ok (a : α) : Blames F (.ok a : Except Failure α) := by
  intro failure h
  cases h

theorem error {failure : Failure} (h : F failure) : Blames F (.error failure : Except Failure α) := by
  rintro _ ⟨⟩
  exact h

theorem imp (h : Blames F x) (hFG : ∀ failure, F failure → G failure) : Blames G x :=
  fun failure hx => hFG failure (h failure hx)

theorem bind {f : α → Except Failure β} (h : Blames F x) (hf : ∀ a, Blames F (f a)) : Blames F (x.bind f) := by
  cases x with
  | error failure => exact .error (h failure rfl)
  | ok a => exact hf a

theorem map (h : Blames F x) (f : α → β) : Blames F (x.map f) := by
  cases x with
  | error failure => exact .error (h failure rfl)
  | ok a => exact .ok (f a)

theorem mapM {f : α → Except Failure β} {xs : List α} (h : ∀ x ∈ xs, Blames F (f x)) : Blames F (xs.mapM f) := by
  induction xs with
  | nil => exact .ok []
  | cons x more ih =>
    rw [List.mapM_cons]
    refine bind (h x (List.mem_cons_self ..)) fun first => ?_
    refine bind (ih fun other hother => h other (List.mem_cons_of_mem _ hother)) fun others => ?_
    exact .ok _

end Blames

/-! ### Expressions -/

theorem BinaryOperator.apply_blames (op : BinaryOperator) (a b : Float) : Blames Failure.Ordinary (op.apply a b) := by
  have hdivision (result : Float) :
      Blames Failure.Ordinary (if b == 0.0 then .error .divisionByZero else .ok result) := by
    split
    · exact .error .divisionByZero
    · exact .ok _
  cases op with
  | divide => exact hdivision _
  | modulo => exact hdivision _
  | _ => exact .ok _

theorem Expr.eval_blames (given : Option Float) (e : Expr) : Blames Failure.Ordinary (e.eval given) := by
  induction e with
  | number value => exact .ok value
  | x =>
    cases given with
    | none => exact .error .unboundVariable
    | some value => exact .ok value
  | negate e ih => exact ih.bind fun value => .ok _
  | binary op left right ihLeft ihRight => exact ihLeft.bind fun a => ihRight.bind fun b => op.apply_blames a b
  | conditional condition yes no ihCondition ihYes ihNo =>
    refine ihCondition.bind fun c => ?_
    split
    · exact ihYes
    · exact ihNo

/-! ### Numerals -/

/-- A numeral fails for want of a key or a scale, or of a value of its own. -/
inductive RomanNumeral.Refuses (r : RomanNumeral) (ambient : Options) : Failure → Prop where
  | unresolved (hambient : ambient.key = none ∨ ambient.scale = none) : Refuses r ambient (.unresolvedNumeral r.text)
  | invalid (hsymbols : Harmony.romanValue? r.symbols = none) : Refuses r ambient (.invalidNumeral r.symbols)

theorem RomanNumeral.chord_blames (r : RomanNumeral) (ambient : Options) :
    Blames (r.Refuses ambient) (r.chord ambient) := by
  have hkey : (r.overrides.apply ambient).key = r.overrides.key.or ambient.key := rfl
  have hscale : (r.overrides.apply ambient).scale = r.overrides.scale.or ambient.scale := rfl
  unfold RomanNumeral.chord RomanNumeral.chordFor
  simp only [hkey, hscale]
  cases hchosen : r.overrides.key.or ambient.key with
  | none => exact .error (.unresolved (.inl (Option.or_eq_none_iff.mp hchosen).2))
  | some key =>
    cases hchosen' : r.overrides.scale.or ambient.scale with
    | none => exact .error (.unresolved (.inr (Option.or_eq_none_iff.mp hchosen').2))
    | some scale =>
      cases hvalue : Harmony.romanValue? r.symbols with
      | none => exact .error (.invalid hvalue)
      | some degree => exact .ok _

/-! ### Operations between lists -/

theorem Arithmetic.apply_blames (op : Arithmetic) (a b : Int) : Blames Failure.Ordinary (op.apply a b) := by
  unfold Arithmetic.apply
  split
  · exact .error .divisionByZero
  · split
    · exact .ok _
    · exact .error (.overflow a op b)

namespace ListArithmetic

theorem combinePitch_blames (op : Arithmetic) (options : Options) (a : Pitch) (degree : Int) :
    Blames Failure.Ordinary (combinePitch op options a degree) :=
  (op.apply_blames a.degree degree).bind fun _ => .ok _

theorem combinePair_blames (op : Arithmetic) (options : Options) (left right : Event) :
    Blames Failure.Ordinary (combinePair op options left right) := by
  unfold combinePair
  split
  · exact (combinePitch_blames op options _ _).bind fun _ => .ok _
  · refine Blames.bind (.mapM fun a _ => .mapM fun b _ => ?_) fun _ => .ok _
    exact combinePitch_blames op options a b.degree

theorem combine_blames (op : Arithmetic) (options : Options) (left right : List Event) :
    Blames Failure.Ordinary (combine op options left right) := by
  refine Blames.bind (.mapM fun r _ => .mapM fun l _ => ?_) fun _ => .ok _
  exact combinePair_blames op options l r

theorem mapPitch_blames (expr : Expr) (options : Options) (p : Pitch) :
    Blames Failure.Ordinary (mapPitch expr options p) :=
  (expr.eval_blames _).bind fun _ => .ok _

theorem mapEvent_blames (expr : Expr) (options : Options) (e : Event) :
    Blames Failure.Ordinary (mapEvent expr options e) := by
  cases e with
  | pitch p => exact (mapPitch_blames expr options p).bind fun _ => .ok _
  | chord c => exact (Blames.mapM fun p _ => mapPitch_blames expr options p).bind fun _ => .ok _
  | _ => exact .ok _

theorem mapEvents_blames (expr : Expr) (options : Options) (events : List Event) :
    Blames Failure.Ordinary (mapEvents expr options events) :=
  .mapM fun e _ => mapEvent_blames expr options e

end ListArithmetic

/-! ### Sharing out durations -/

theorem assignDurations_blames {τ : Type} [Quantity τ] (steps : List (Step τ)) :
    Blames Failure.Ordinary (assignDurations steps) := by
  rcases Step.assignDurations_yields steps with ⟨-, hfails⟩ | ⟨-, hsounds⟩
  · rw [hfails]
    exact .error .emptySubdivision
  · rw [hsounds]
    exact .ok _

end NumberedMelody
