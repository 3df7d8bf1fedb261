/-
  NumberedMelody/Proofs/Evaluation/MappedDegrees.lean
  ===================================================
  **Degrees through an expression.**  The values of an expression are doubles, and
  their floors are integers of any size, or missing where a value is no number.
  Arithmetic between lists fails where a result is no degree, but an expression is
  brought into the 32 bits of a degree and never fails for that: only a division by
  zero does.  So the mapped degrees are the floors of the values exactly if all
  these floors are degrees (`ListArithmetic.mapped_degrees_exact_iff`).
-/
import NumberedMelody.Proofs.Decimal.Shortest
import NumberedMelody.Proofs.Evaluation.Bounds

namespace NumberedMelody

/-! ### Floors of doubles -/

namespace Binary64

/-- The number that a double stands for; none for an infinite one and for what is
    not a number. -/
def rational? (x : Float) : Option ℚ :=
  match value x with
  | .finite negative significand exponent =>
    some (((if negative then -significand else significand : Int) : ℚ) * 2 ^ exponent)
  | _ => none

/-- The floor of a double as an integer of any size. -/
def exactFloor? (x : Float) : Option Int := (rational? x).map Int.floor

theorem floorOf_eq_floor (negative : Bool) (significand : Nat) (exponent : Int) :
    floorOf negative significand exponent =
      ⌊((if negative then -significand else significand : Int) : ℚ) * 2 ^ exponent⌋ := by
  unfold floorOf
  generalize (if negative then -significand else significand : Int) = signed
  by_cases hwhole : 0 ≤ exponent
  · obtain ⟨n, rfl⟩ := Int.eq_ofNat_of_zero_le hwhole
    have hcast : (signed : ℚ) * 2 ^ (n : Int) = ((signed * (2 ^ n : Nat) : Int) : ℚ) := by push_cast; rfl
    rw [if_pos hwhole, hcast, Int.floor_intCast]
    rfl
  · have hcast : (signed : ℚ) * 2 ^ exponent = signed / ((2 ^ (-exponent).toNat : Nat) : ℚ) := by
      have hpower := Decimal.zpow_mul_pow_toNat (two_ne_zero : (2 : ℚ) ≠ 0) exponent
      rw [Int.toNat_of_nonpos (by omega : exponent ≤ 0), pow_zero] at hpower
      rw [eq_div_iff (by positivity), mul_assoc, Nat.cast_pow, Nat.cast_two, hpower, mul_one]
    rw [if_neg hwhole, hcast, Rat.floor_intCast_div_natCast]
    rfl

/-- The floor that counts as a degree is the floor, if that is one. -/
theorem floor32_of_exactFloor {x : Float} {n : Int} (h : exactFloor? x = some n) : floor32 x = clamp32 n := by
  unfold exactFloor? rational? at h
  unfold floor32 wholePart
  cases hx : value x with
  | finite negative significand exponent =>
    rw [hx, Option.map_some] at h
    rw [← Option.some.inj h, ← floorOf_eq_floor]
  | nan => simp [hx] at h
  | infinite negative => simp [hx] at h

theorem clamp32_of_fits {n : Int} (h : fits32 n = true) : clamp32 n = n := by
  rw [fits32_iff] at h
  unfold clamp32
  omega

end Binary64

/-! ### Values of expressions -/

theorem BinaryOperator.apply_eq_error {op : BinaryOperator} {a b : Float} {failure : Failure}
    (h : op.apply a b = .error failure) : failure = .divisionByZero := by
  have hdivides {value : Float} (h : (if b == 0.0 then .error .divisionByZero else .ok value) = Except.error failure) :
      failure = .divisionByZero := by
    split at h
    · exact (Except.error.inj h).symm
    · cases h
  cases op with
  | divide => exact hdivides h
  | modulo => exact hdivides h
  | _ => cases h

/-- With a value for the variable, an expression fails for a division by zero only. -/
theorem Expr.eval_eq_error {x : Float} {failure : Failure} {expr : Expr} (h : expr.eval (some x) = .error failure) :
    failure = .divisionByZero := by
  induction expr with
  | number value => cases h
  | x => cases h
  | negate e ih =>
    rcases bind_eq_error.mp h with h | ⟨value, -, h⟩
    · exact ih h
    · cases h
  | binary op left right ihleft ihright =>
    rcases bind_eq_error.mp h with h | ⟨a, -, h⟩
    · exact ihleft h
    · rcases bind_eq_error.mp h with h | ⟨b, -, h⟩
      · exact ihright h
      · exact BinaryOperator.apply_eq_error h
  | conditional condition yes no ihcondition ihyes ihno =>
    rcases bind_eq_error.mp h with h | ⟨value, -, h⟩
    · exact ihcondition h
    · split at h
      · exact ihyes h
      · exact ihno h

/-! ### Mapped degrees -/

namespace ListArithmetic

variable {expr : Expr} {o : Options} {e e' : Event}

/-- The value of the expression at the degree of a tone. -/
def valueAt (expr : Expr) (p : Pitch) : Except Failure Float := expr.eval (some (Float.ofInt p.degree))

/-- The degree that the expression gives for the degree of a tone, for a way of
    making values whole. -/
def degreeBy (whole : Float → Option Int) (expr : Expr) (p : Pitch) : Option Int :=
  (valueAt expr p).toOption.bind whole

/-- The degrees of the second event are, in some order, those that the expression
    gives for the degrees of the first. -/
def Maps (whole : Float → Option Int) (expr : Expr) (e e' : Event) : Prop :=
  ((tonesOf e').map fun p => some p.degree).Perm ((tonesOf e).map (degreeBy whole expr))

/-- The floor of the value at the degree of a tone is a degree. -/
def FloorFits (expr : Expr) (p : Pitch) : Prop :=
  ∃ n, degreeBy Binary64.exactFloor? expr p = some n ∧ fits32 n = true

instance (expr : Expr) (p : Pitch) : Decidable (FloorFits expr p) :=
  decidable_of_iff ((degreeBy Binary64.exactFloor? expr p).any fits32 = true) (Option.any_eq_true ..)

theorem failure?_mapPitch (expr : Expr) (o : Options) (p : Pitch) :
    failure? (mapPitch expr o p) = failure? (valueAt expr p) :=
  failure?_bind_ok _ _

theorem failure?_mapEvent (expr : Expr) (o : Options) (e : Event) :
    failure? (mapEvent expr o e) = (tonesOf e).findSome? fun p => failure? (valueAt expr p) := by
  cases e with
  | pitch p =>
    have hpitch : failure? (mapEvent expr o (.pitch p)) = failure? (mapPitch expr o p) := failure?_bind_ok _ _
    rw [hpitch, failure?_mapPitch]
    exact List.findSome?_singleton.symm
  | chord c =>
    have hchord : failure? (mapEvent expr o (.chord c)) = failure? (c.tones.mapM (mapPitch expr o)) :=
      failure?_bind_ok _ _
    rw [hchord, failure?_mapM]
    exact congrArg (List.findSome? · _) (funext (failure?_mapPitch expr o))
  | _ => rfl

/-- A mapping fails with the first failure at a tone. -/
theorem failure?_mapEvents (expr : Expr) (o : Options) (events : List Event) :
    failure? (mapEvents expr o events) = (events.flatMap tonesOf).findSome? fun p => failure? (valueAt expr p) := by
  rw [mapEvents, failure?_mapM, findSome?_flatMap]
  exact congrArg (List.findSome? · _) (funext (failure?_mapEvent expr o))

theorem mapEvents_eq_error_iff {events : List Event} {failure : Failure} :
    mapEvents expr o events = .error failure ↔
      failure = .divisionByZero ∧ ∃ p ∈ events.flatMap tonesOf, valueAt expr p = .error .divisionByZero := by
  rw [← failure?_eq_some_iff, failure?_mapEvents]
  constructor
  · intro h
    obtain ⟨p, hp, hfailure⟩ := List.exists_of_findSome?_eq_some h
    rw [failure?_eq_some_iff] at hfailure
    obtain rfl := Expr.eval_eq_error hfailure
    exact ⟨rfl, p, hp, hfailure⟩
  · rintro ⟨rfl, p, hp, hfailure⟩
    have hsome : ((events.flatMap tonesOf).findSome? fun p => failure? (valueAt expr p)).isSome = true := by
      rw [List.findSome?_isSome_iff]
      exact ⟨p, hp, by rw [hfailure]; rfl⟩
    obtain ⟨failure, hfirst⟩ := Option.isSome_iff_exists.mp hsome
    obtain ⟨q, -, hq⟩ := List.exists_of_findSome?_eq_some hfirst
    rw [failure?_eq_some_iff] at hq
    rw [hfirst, Expr.eval_eq_error hq]

theorem degreeBy_eq_some_iff {whole : Float → Option Int} {p : Pitch} {n : Int} :
    degreeBy whole expr p = some n ↔ ∃ value, valueAt expr p = .ok value ∧ whole value = some n := by
  unfold degreeBy
  cases valueAt expr p <;> simp [Except.toOption]

/-- A tone is mapped to the floor, brought into 32 bits. -/
theorem mapPitch_eq_ok {a p : Pitch} (h : mapPitch expr o a = .ok p) :
    degreeBy (some ∘ Binary64.floor32) expr a = some p.degree ∧ p.resolve o = p := by
  obtain ⟨value, hvalue, h⟩ := bind_eq_ok.mp h
  obtain rfl := Except.ok.inj h
  exact ⟨degreeBy_eq_some_iff.mpr ⟨value, hvalue, by rw [degree_derive]; rfl⟩, resolve_derive ..⟩

theorem maps_floor32 (h : mapEvent expr o e = .ok e') : Maps (some ∘ Binary64.floor32) expr e e' := by
  cases e with
  | pitch a =>
    obtain ⟨p, hp, h⟩ := bind_eq_ok.mp h
    obtain rfl := Except.ok.inj h
    exact .of_eq (congrArg ([·]) (mapPitch_eq_ok hp).1.symm)
  | chord c =>
    obtain ⟨tones, htones, h⟩ := bind_eq_ok.mp h
    obtain rfl := Except.ok.inj h
    have hresolved : ∀ tone ∈ tones, tone.resolve o = tone := by
      intro tone htone
      obtain ⟨a, -, hp⟩ := mem_of_mapM_eq_ok htones tone htone
      exact (mapPitch_eq_ok hp).2
    have hdegrees : tones.map (fun p => some p.degree) = c.tones.map (degreeBy (some ∘ Binary64.floor32) expr) := by
      rw [← List.forall₂_eq_eq_eq, List.forall₂_map_left_iff, List.forall₂_map_right_iff]
      exact (forall₂_of_mapM_eq_ok htones).flip.imp fun _ _ hp => (mapPitch_eq_ok hp).1.symm
    unfold Maps
    rw [deriveChord_eq hresolved]
    exact ((perm_sortTones tones).map _).trans (.of_eq hdegrees)
  | _ =>
    obtain rfl := Except.ok.inj h
    exact .nil

/-- The degrees are the floors exactly if all floors are degrees. -/
theorem maps_exactFloor_iff (h : mapEvent expr o e = .ok e') :
    Maps Binary64.exactFloor? expr e e' ↔ ∀ p ∈ tonesOf e, FloorFits expr p := by
  have hmapped := maps_floor32 h
  constructor
  · intro hexact p hp
    -- in whatever order, the floors are among the degrees, and these were brought into 32 bits
    obtain ⟨tone, htone, hfloor⟩ := List.mem_map.mp (hexact.mem_iff.mpr (List.mem_map_of_mem hp))
    obtain ⟨q, -, hq⟩ := List.mem_map.mp (hmapped.mem_iff.mp (List.mem_map_of_mem htone))
    obtain ⟨value, -, hvalue⟩ := degreeBy_eq_some_iff.mp hq
    obtain hdegree : Binary64.floor32 value = tone.degree := Option.some.inj hvalue
    exact ⟨tone.degree, hfloor.symm, hdegree ▸ Binary64.fits32_floor32 value⟩
  · intro hfit
    refine hmapped.trans (.of_eq (List.map_congr_left fun p hp => ?_))
    obtain ⟨n, hn, hfits⟩ := hfit p hp
    obtain ⟨value, hvalue, hfloor⟩ := degreeBy_eq_some_iff.mp hn
    rw [hn, degreeBy_eq_some_iff]
    refine ⟨value, hvalue, congrArg some ?_⟩
    rw [Binary64.floor32_of_exactFloor hfloor, Binary64.clamp32_of_fits hfits]

/-- **Mapped degrees are exact where the floors are degrees.**  A mapping fails for
    a division by zero only.  Otherwise every degree becomes the floor of the value
    brought into 32 bits, and these are the floors themselves exactly if every
    floor is a degree: a floor that is none is no failure. -/
theorem mapped_degrees_exact_iff (expr : Expr) (options : Options) (events : List Event) :
    (∀ failure, mapEvents expr options events = .error failure ↔
      failure = .divisionByZero ∧ ∃ p ∈ events.flatMap tonesOf, valueAt expr p = .error .divisionByZero) ∧
    ∀ results, mapEvents expr options events = .ok results →
      List.Forall₂ (Maps (some ∘ Binary64.floor32) expr) events results ∧
        (List.Forall₂ (Maps Binary64.exactFloor? expr) events results ↔
          ∀ p ∈ events.flatMap tonesOf, FloorFits expr p) := by
  refine ⟨fun _ => mapEvents_eq_error_iff, ?_⟩
  intro results h
  have hpairs := forall₂_of_mapM_eq_ok h
  refine ⟨hpairs.imp fun _ _ => maps_floor32, ?_⟩
  clear h
  induction hpairs with
  | nil => simp
  | cons he _ ih =>
    rw [List.forall₂_cons, List.flatMap_cons, List.forall_mem_append, maps_exactFloor_iff he, ih]

theorem half_of_pitch_and_chord_mapped :
    let half : Expr := .binary .divide .x (.number 2.0)
    let chord : Chord := { text := "45", tones := [{ text := "4", degree := 4 }, { text := "5", degree := 5 }] }
    ∃ results, mapEvents half {} [.pitch { text := "-3", degree := -3 }, .chord chord] = .ok results ∧
      List.Forall₂ (Maps Binary64.exactFloor? half) [.pitch { text := "-3", degree := -3 }, .chord chord] results := by
  intro half chord
  have hok : (mapEvents half {} [.pitch { text := "-3", degree := -3 }, .chord chord]).toOption.any
      (fun _ => true) = true := by
    decide +kernel
  obtain ⟨results, hresults, -⟩ := eq_ok_of_any hok
  refine ⟨results, hresults, ((mapped_degrees_exact_iff _ _ _).2 results hresults).2.mpr ?_⟩
  decide +kernel

/-- Three thousand million is no degree, and yet it is no failure. -/
theorem mapped_degree_saturates :
    let expr : Expr := .binary .multiply .x (.number 3000000000.0)
    let one : Pitch := { text := "1", degree := 1 }
    ∃ results, mapEvents expr {} [.pitch one] = .ok results ∧
      (results.flatMap tonesOf).map (·.degree) = [2147483647] ∧
      degreeBy Binary64.exactFloor? expr one = some 3000000000 := by
  intro expr one
  have hok : (mapEvents expr {} [.pitch one]).toOption.any
      (fun results => (results.flatMap tonesOf).map (·.degree) == [2147483647]) = true := by
    decide +kernel
  obtain ⟨results, hresults, hdegrees⟩ := eq_ok_of_any hok
  exact ⟨results, hresults, eq_of_beq hdegrees, by decide +kernel⟩

end ListArithmetic

end NumberedMelody
