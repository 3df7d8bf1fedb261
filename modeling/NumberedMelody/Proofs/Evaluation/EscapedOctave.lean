/-
  NumberedMelody/Proofs/Evaluation/EscapedOctave.lean
  ===================================================
  **Octaves in angle brackets.**  Overrides with an octave change do not look at
  the ambient octave when they are applied (`Overrides.apply_inOctave`).  A node
  that is played against its overrides alone, or whose body is, therefore sounds
  the same in every ambient octave.  A range is the exception: unless it has
  octave marks of its own, it makes the ambient octave a mark of its pitches,
  which is added to the octave in the brackets (`escaped_octave_hides_ambient_iff`).
-/
import NumberedMelody.Grammar.Item
import NumberedMelody.Proofs.Evaluation.Invariant
import NumberedMelody.Proofs.Evaluation.Lockstep
import NumberedMelody.Proofs.Evaluation.Product

namespace NumberedMelody

open NumberedMelody.Random (Source)

/-! ### Ambient octaves -/

/-- The same options in another octave. -/
def Options.inOctave (o : Options) (octave : Int) : Options := { o with octave }

/-- The same context in another octave, with the same options to go back to. -/
def Context.inOctave (context : Context) (octave : Int) : Context :=
  { context with options := context.options.inOctave octave }

namespace Node

/-- The octave that the marks of a node put in place of the ambient one. -/
def octaveChange? : Node → Option Int
  | .event (.pitch p) => p.overrides.octaveChange
  | .randomPitch _ overrides => overrides.octaveChange
  | .randomInteger _ overrides _ _ => overrides.octaveChange
  | .range _ overrides _ _ => overrides.octaveChange
  | .sequence _ overrides _ _ => overrides.octaveChange
  | .subdivision _ overrides _ => overrides.octaveChange
  | _ => none

/-- A range without octave marks: its pitches carry the ambient octave. -/
def carriesOctave : Node → Bool
  | .range _ overrides _ _ => overrides.octave.isNone
  | _ => false

end Node

variable {overrides : Overrides} {n : Int}

/-- **A changed octave hides the ambient one.** -/
theorem Overrides.apply_inOctave (h : overrides.octaveChange = some n) (o : Options) (octave : Int) :
    overrides.apply (o.inOctave octave) = overrides.apply o := by
  simp only [apply, Options.inOctave, h, Option.getD_some]

theorem Context.inside_inOctave (h : overrides.octaveChange = some n) (context : Context) (octave : Int) :
    (context.inOctave octave).inside overrides = context.inside overrides := by
  have hempty : ¬ overrides.isEmpty = true := by simp [Overrides.isEmpty, h]
  simp only [inside, if_neg hempty, inOctave, Overrides.apply_inOctave h]

theorem Pitch.resolve_inOctave {p : Pitch} (h : p.overrides.octaveChange = some n) (o : Options) (octave : Int) :
    p.resolve (o.inOctave octave) = p.resolve o := by
  simp only [resolve, adopt, Overrides.apply_inOctave h]

theorem Pitch.generated_inOctave (h : overrides.octaveChange = some n) (degree : Int) (text : String) (o : Options)
    (octave : Int) :
    Pitch.generated degree text overrides (o.inOctave octave) = Pitch.generated degree text overrides o :=
  resolve_inOctave (p := { text, overrides, degree }) h o octave

theorem Pitch.octave_generated (degree : Int) (text : String) (overrides : Overrides) (o : Options) :
    (Pitch.generated degree text overrides o).octave = some (overrides.apply o).octave := by
  obtain ⟨note, frequency, bend, htune⟩ := (Pitch.adopt { text, overrides, degree } o).tune_eq false
  rw [generated, resolve, htune]
  rfl

/-! ### Ranges -/

/-- Octave marks of its own keep a range from carrying the ambient octave. -/
theorem rangePitches_inOctave (h : overrides.octaveChange = some n) (hmarks : overrides.octave.isSome = true)
    (first last : Int) (o : Options) (octave : Int) :
    rangePitches overrides first last (o.inOctave octave) = rangePitches overrides first last o := by
  obtain ⟨marks, hmarks⟩ := Option.isSome_iff_exists.mp hmarks
  have hchange : ({ overrides with octave := some marks } : Overrides).octaveChange = some n := h
  simp only [rangePitches, hmarks, Option.getD_some, Pitch.generated_inOctave hchange]

/-- The octave of a range is the one in brackets, moved by its marks, or else by
    the ambient octave. -/
theorem octave_of_range (h : overrides.octaveChange = some n) {first last : Int} {o : Options} {p : Pitch}
    (hp : p ∈ rangePitches overrides first last o) : p.octave = some (n + overrides.octave.getD o.octave) := by
  obtain ⟨degree, -, rfl⟩ := List.mem_map.mp hp
  rw [Pitch.octave_generated]
  simp only [Overrides.apply, h, Option.getD_some]

theorem steps_of_pitches_inj {ps qs : List Pitch}
    (h : (ps.map fun p => Step.ready (.pitch p)) = qs.map fun p => Step.ready (.pitch p)) : ps = qs := by
  refine List.map_injective_iff.mpr ?_ h
  intro p q hpq
  exact Event.pitch.inj (Step.ready.inj hpq)

theorem integersBetween_ne_nil (first last : Int) : integersBetween first last ≠ [] := by
  unfold integersBetween
  split
  · have : (last - first + 1).toNat ≠ 0 := by omega
    simpa using this
  · have : (first - last + 1).toNat ≠ 0 := by omega
    simpa using this

theorem octave_eq_of_rangePitches_eq (h : overrides.octaveChange = some n) (hmarks : overrides.octave = none)
    {first last octave : Int} {o : Options}
    (heq : rangePitches overrides first last (o.inOctave octave) = rangePitches overrides first last o) :
    octave = o.octave := by
  have hsome : rangePitches overrides first last o ≠ [] := by
    simp only [rangePitches, ne_eq, List.map_eq_nil_iff]
    exact integersBetween_ne_nil first last
  obtain ⟨p, hp⟩ := List.exists_mem_of_ne_nil _ hsome
  have hthere := octave_of_range h (heq ▸ hp)
  have hhere := octave_of_range h hp
  rw [hthere, hmarks] at hhere
  simpa [Options.inOctave] using hhere

/-! ### Nodes in two octaves -/

/-- A node that does not carry the ambient octave is run alike in both. -/
theorem realize_inOctave {node : Node} (h : node.octaveChange? = some n) (hcarries : node.carriesOctave = false)
    (context : Context) (octave : Int) (source : Source) :
    (realize node (context.inOctave octave) source).back context = realize node context source := by
  rw [realize_eq_level, realize_eq_level]
  cases node with
  | event e =>
    cases e with
    | pitch p =>
      simp only [Realizer.level, Event.against, Context.inOctave, Pitch.resolve_inOctave h]
      rfl
    | _ => cases h
  | randomPitch text overrides =>
    simp only [Realizer.level, Context.inOctave, Overrides.apply_inOctave h, Pitch.generated_inOctave h]
    rfl
  | randomInteger text overrides low high =>
    simp only [Realizer.level, Context.inOctave, Pitch.generated_inOctave h]
    rfl
  | range text overrides first last =>
    have hmarks : overrides.octave.isSome = true := by
      rw [← Option.not_isNone, show overrides.octave.isNone = false from hcarries]
      rfl
    simp only [Realizer.level, Context.inOctave, rangePitches_inOctave h hmarks]
    rfl
  | sequence text overrides isList values =>
    simp only [Realizer.level, Context.inside_inOctave h]
    rfl
  | subdivision text overrides values =>
    simp only [Realizer.level, Context.inside_inOctave h]
    rfl
  | _ => cases h

theorem realize_range (text : String) (overrides : Overrides) (first last : Int) (context : Context)
    (source : Source) :
    realize (.range text overrides first last) context source =
      ⟨.range text overrides first last, context, source,
        .ok ((rangePitches overrides first last context.options).map fun p => .ready (.pitch p))⟩ := by
  rw [realize_eq_level]
  rfl

/-- **Where an octave in brackets replaces the ambient octave.**  A node with an
    octave change (a pitch, a random pitch or integer, a range, a list or a
    subdivision, whatever is inside) yields the same steps in two contexts that
    differ in the ambient octave, and leaves the same tree and the same source,
    with the one exception of a range without octave marks: this one yields the
    same steps in the same ambient octave only.  The pitches of a range are in
    the octave in brackets, moved by the marks of the range, or by the ambient
    octave if it has none. -/
theorem escaped_octave_hides_ambient_iff {node : Node} (h : node.octaveChange? = some n) (context : Context)
    (octave : Int) (source : Source) :
    ((realize node (context.inOctave octave) source).result = (realize node context source).result ↔
        (node.carriesOctave = true → octave = context.options.octave)) ∧
      (realize node (context.inOctave octave) source).tree = (realize node context source).tree ∧
      (realize node (context.inOctave octave) source).source = (realize node context source).source ∧
      ∀ text overrides first last, node = .range text overrides first last →
        ∃ pitches : List Pitch, (realize node context source).result = .ok (pitches.map fun p => .ready (.pitch p)) ∧
          pitches ≠ [] ∧ ∀ p ∈ pitches, p.octave = some (n + overrides.octave.getD context.options.octave) := by
  have hrange : ∀ text overrides first last, node = .range text overrides first last →
      ∃ pitches : List Pitch, (realize node context source).result = .ok (pitches.map fun p => .ready (.pitch p)) ∧
        pitches ≠ [] ∧ ∀ p ∈ pitches, p.octave = some (n + overrides.octave.getD context.options.octave) := by
    rintro text overrides first last rfl
    refine ⟨rangePitches overrides first last context.options, by rw [realize_range], ?_, ?_⟩
    · simp only [rangePitches, ne_eq, List.map_eq_nil_iff]
      exact integersBetween_ne_nil first last
    · exact fun p hp => octave_of_range h hp
  cases hcarries : node.carriesOctave with
  | false =>
    have hrun := realize_inOctave h hcarries context octave source
    rw [← hrun]
    refine ⟨⟨fun _ hcarried => (by cases hcarried), fun _ => rfl⟩, rfl, rfl, ?_⟩
    rw [hrun]
    exact hrange
  | true =>
    cases node with
    | range text overrides first last =>
      have hmarks : overrides.octave = none := Option.isNone_iff_eq_none.mp hcarries
      refine ⟨?_, by rw [realize_range, realize_range], by rw [realize_range, realize_range], hrange⟩
      simp only [realize_range, Context.inOctave, forall_const]
      constructor
      · intro heq
        exact octave_eq_of_rangePitches_eq h hmarks (steps_of_pitches_inj (Except.ok.inj heq))
      · intro hsame
        have hback : context.options.inOctave octave = context.options := by rw [Options.inOctave, hsame]
        rw [hback]
    | _ => cases hcarries

/-- A random pitch and a range in a list, against an octave of two and none:
    `<1>(? 0..2)`. -/
theorem random_list_hides_ambient_octave :
    let list := Node.sequence "<1>(? 0..2)" { octaveChange := some 1 } true
      [.randomPitch "?" {}, .blank " ", .range "0..2" {} 0 2]
    let plain := Context.ofOptions {}
    list.octaveChange? = some 1 ∧ list.carriesOctave = false ∧
      (realize list (plain.inOctave 2) (.ofSeed 9)).result = (realize list plain (.ofSeed 9)).result ∧
      (realize list (plain.inOctave 2) (.ofSeed 9)).source = (realize list plain (.ofSeed 9)).source := by
  intro list plain
  have hlist : list.octaveChange? = some 1 := rfl
  have hides := escaped_octave_hides_ambient_iff hlist plain 2 (.ofSeed 9)
  refine ⟨hlist, rfl, hides.1.mpr ?_, hides.2.2.1⟩
  intro hcarries
  cases hcarries

/-- A range without octave marks in the octave one. -/
def isEscapedRange : List Node → Bool
  | [.range _ overrides _ _] => overrides.octaveChange == some 1 && overrides.octave.isNone
  | _ => false

/-- A range in the octave one is higher in the ambient octave one than in the
    ambient octave zero. -/
theorem escaped_range_hears_ambient_octave :
    ∃ range, readPattern "<1>0..0" = .ok [range] ∧ range.octaveChange? = some 1 ∧
      (realize range ((Context.ofOptions {}).inOctave 1) (.ofSeed 0)).result ≠
        (realize range (.ofOptions {}) (.ofSeed 0)).result := by
  have hcheck : (readPattern "<1>0..0").toOption.any isEscapedRange = true := by decide +kernel
  obtain ⟨nodes, hread, hshape⟩ := eq_ok_of_any hcheck
  unfold isEscapedRange at hshape
  split at hshape
  · next text overrides first last =>
    simp only [Bool.and_eq_true, beq_iff_eq, Option.isNone_iff_eq_none] at hshape
    obtain ⟨hchange, hmarks⟩ := hshape
    refine ⟨_, hread, hchange, ?_⟩
    intro hsame
    simp only [realize_range] at hsame
    have hoctave := octave_eq_of_rangePitches_eq hchange hmarks (steps_of_pitches_inj (Except.ok.inj hsame))
    exact absurd hoctave (by decide)
  · cases hshape

end NumberedMelody
