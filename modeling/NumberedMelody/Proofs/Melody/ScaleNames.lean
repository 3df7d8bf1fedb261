/-
  NumberedMelody/Proofs/Melody/ScaleNames.lean
  ============================================
  **Scales by differently written names.**  A scale is looked up under the small
  forms of the characters of its name, separators left out.  Which small form a
  character has is a matter of the character tables; what the lookup needs to
  know of them is in `SmallForms`.  Names that are looked up alike have the same
  steps, and so the same notes.  The chromatic scale is asked for once more, by a
  test that ignores case but not separators: names are interchangeable unless
  one of them is a chromatic one with separators and the other is without
  (`scale_names_interchangeable`).
-/
import NumberedMelody.Proofs.Harmony.WholeSteps
import NumberedMelody.Proofs.Melody.Renaming

namespace NumberedMelody

namespace Scale

/-! ### Small forms -/

/-- The small form of every character.  An ASCII character has the one that ASCII
    gives it; the kelvin sign has a plain letter, and every other character has a
    form that is not all ASCII. -/
structure SmallForms (small : Char → List Char) : Prop where
  ascii : ∀ c, c.toNat < 128 → small c = [c.toLower]
  kelvin : ∀ c, c.toNat = 0x212A → small c = ['k']
  other : ∀ c, 128 ≤ c.toNat → c.toNat ≠ 0x212A → ∃ d ∈ small c, 128 ≤ d.toNat

theorem toLower_of_not_ascii {c : Char} (h : 128 ≤ c.toNat) : c.toLower = c := by
  have hhigh : ¬(c.val ≥ 'A'.val ∧ c.val ≤ 'Z'.val) := by
    rintro ⟨-, hle⟩
    have : c.toNat ≤ 90 := hle
    omega
  rw [Char.toLower, dif_neg hhigh]

/-- Folding case one character by one is such a table. -/
theorem smallForms_foldCase : SmallForms fun c => [foldCase c] where
  ascii c hc := by rw [foldCase, if_neg (by omega)]
  kelvin c hc := by rw [foldCase, if_pos hc]
  other c hc hkelvin := by
    refine ⟨foldCase c, List.mem_singleton_self _, ?_⟩
    rw [foldCase, if_neg hkelvin, toLower_of_not_ascii hc]
    exact hc

/-! ### Names as they are looked up -/

/-- A character of a name that is no separator. -/
def counts (c : Char) : Bool := c != ' ' && c != '_' && c != '-'

/-- The small forms of a name without its separators. -/
def normalized (small : Char → List Char) (name : String) : List Char := (name.toList.filter counts).flatMap small

/-- A name with separators in it. -/
def Spaced (name : String) : Prop := ∃ c ∈ name.toList, counts c = false

variable {small : Char → List Char}

theorem SmallForms.eq_foldCase (h : SmallForms small) {c : Char} (hc : c.toNat < 128 ∨ c.toNat = 0x212A) :
    small c = [foldCase c] := by
  rcases hc with hascii | hkelvin
  · rw [h.ascii c hascii, smallForms_foldCase.ascii c hascii]
  · rw [h.kelvin c hkelvin, smallForms_foldCase.kelvin c hkelvin]

theorem flatMap_eq_map {f : Char → Char} {characters : List Char} (h : ∀ c ∈ characters, small c = [f c]) :
    characters.flatMap small = characters.map f := by
  rw [List.flatMap_congr h, List.map_eq_flatMap]

/-- Names of scales are in ASCII, so a name with any other character is unknown. -/
theorem table_lookup_eq_none {name : String} (h : ∃ c ∈ name.toList, 128 ≤ c.toNat) : table.lookup name = none := by
  have hascii : (table.all fun entry => entry.1.toList.all fun c => c.toNat < 128) = true := by decide +kernel
  simp only [List.all_eq_true, decide_eq_true_eq] at hascii
  obtain ⟨c, hc, hhigh⟩ := h
  rw [List.lookup_eq_none_iff]
  rintro entry hentry
  refine bne_iff_ne.mpr ?_
  rintro rfl
  exact absurd (hascii entry hentry c hc) (by omega)

/-- **Any table of small forms finds the same scales.** -/
theorem lookup_eq (h : SmallForms small) (name : String) :
    lookup name = table.lookup (String.ofList (normalized small name)) := by
  by_cases hplain : ∀ c ∈ name.toList.filter counts, c.toNat < 128 ∨ c.toNat = 0x212A
  · have hfold : normalized small name = (name.toList.filter counts).map foldCase :=
      flatMap_eq_map fun c hc => h.eq_foldCase (hplain c hc)
    rw [hfold]
    rfl
  · push Not at hplain
    obtain ⟨c, hc, hhigh, hkelvin⟩ := hplain
    have hsmall := h.other c hhigh hkelvin
    have hfold := smallForms_foldCase.other c hhigh hkelvin
    rw [lookup, table_lookup_eq_none, table_lookup_eq_none]
    · obtain ⟨d, hd, hd'⟩ := hsmall
      exact ⟨d, by rw [String.toList_ofList]; exact List.mem_flatMap.mpr ⟨c, hc, hd⟩, hd'⟩
    · obtain ⟨d, hd, hd'⟩ := hfold
      refine ⟨d, ?_, hd'⟩
      rw [foldName, String.toList_ofList, List.mem_singleton.mp hd]
      exact List.mem_map_of_mem hc

/-- The letters of the chromatic scale are in ASCII, and the one that stands for the
    kelvin sign is not among them. -/
theorem chromatic_letters : ∀ c ∈ "chromatic".toList, c.toNat < 128 ∧ c ≠ 'k' := by
  have hletters : ("chromatic".toList.all fun c => c.toNat < 128 && c != 'k') = true := by decide +kernel
  simpa only [List.all_eq_true, Bool.and_eq_true, decide_eq_true_eq, bne_iff_ne] using hletters

theorem isChromatic_iff (h : SmallForms small) (name : String) :
    (named name).isChromatic = true ↔ normalized small name = "chromatic".toList ∧ ¬Spaced name := by
  have hspaced : ¬Spaced name ↔ ∀ c ∈ name.toList, counts c = true := by simp [Spaced]
  rw [isChromatic, beq_iff_eq, hspaced]
  constructor
  · intro hletters
    have hmem : ∀ c ∈ name.toList, c.toLower ∈ "chromatic".toList := by
      intro c hc
      rw [← hletters]
      exact List.mem_map_of_mem hc
    have hcounts : ∀ c ∈ name.toList, counts c = true := fun c hc => (foldCase_of_chromatic (hmem c hc)).1
    refine ⟨?_, hcounts⟩
    rw [normalized, List.filter_eq_self.mpr hcounts, ← hletters]
    refine flatMap_eq_map fun c hc => h.ascii c ?_
    by_contra hhigh
    have hin := hmem c hc
    rw [toLower_of_not_ascii (Nat.le_of_not_lt hhigh)] at hin
    exact hhigh (chromatic_letters c hin).1
  · rintro ⟨hnormalized, hcounts⟩
    rw [normalized, List.filter_eq_self.mpr hcounts] at hnormalized
    rw [← hnormalized]
    refine (flatMap_eq_map fun c hc => h.ascii c ?_).symm
    by_contra hhigh
    have hin : ∀ d ∈ small c, d.toNat < 128 ∧ d ≠ 'k' := by
      intro d hd
      exact chromatic_letters d (hnormalized ▸ List.mem_flatMap.mpr ⟨c, hc, hd⟩)
    by_cases hkelvin : c.toNat = 0x212A
    · exact (hin 'k' (by rw [h.kelvin c hkelvin]; exact List.mem_singleton_self _)).2 rfl
    · obtain ⟨d, hd, hd'⟩ := h.other c (Nat.le_of_not_lt hhigh) hkelvin
      exact absurd (hin d hd).1 (by omega)

/-! ### Names that are looked up alike -/

variable {a b : String}

theorem intervals_eq (hsmall : SmallForms small) (h : normalized small a = normalized small b) :
    (named a).intervals = (named b).intervals := by
  have hlookup : lookup a = lookup b := by rw [lookup_eq hsmall, lookup_eq hsmall, h]
  simp only [intervals, hlookup]

/-- Names that are both the chromatic one without separators or neither. -/
def AskedAlike (small : Char → List Char) (a b : String) : Prop :=
  normalized small a = "chromatic".toList → (Spaced a ↔ Spaced b)

theorem isChromatic_eq_iff (hsmall : SmallForms small) (h : normalized small a = normalized small b) :
    (named a).isChromatic = (named b).isChromatic ↔ AskedAlike small a b := by
  rw [Bool.eq_iff_iff, isChromatic_iff hsmall, isChromatic_iff hsmall, ← h, AskedAlike]
  tauto

end Scale

open Scale

/-- Two names of one scale in place of each other. -/
def Renaming.ofScaleNames {a b : String} (hintervals : (named a).intervals = (named b).intervals)
    (hchromatic : (named a).isChromatic = (named b).isChromatic) : Renaming where
  key := id
  scale
    | .named name => .named (Equiv.swap a b name)
    | other => other
  beq_key _ _ := rfl
  beq_scale s s' := by
    cases s with
    | named name =>
      cases s' with
      | named name' =>
        show (Equiv.swap a b name == Equiv.swap a b name') = (name == name')
        rw [Bool.eq_iff_iff, beq_iff_eq, beq_iff_eq, (Equiv.injective _).eq_iff]
      | _ => rfl
    | _ => cases s' <;> rfl
  toMidi_key _ := rfl
  fifthsOfKey_key _ := rfl
  intervals_scale s := by
    cases s with
    | named name => exact Equiv.apply_swap_eq_self (v := fun name => (named name).intervals) hintervals name
    | _ => rfl
  isChromatic_scale s := by
    cases s with
    | named name => exact Equiv.apply_swap_eq_self (v := fun name => (named name).isChromatic) hchromatic name
    | _ => rfl

namespace Harmony

variable {scale scale' : Scale}

/-- A step between two degrees has an accidental, but over the chromatic scale none. -/
theorem modifier_eq_zero_iff (key : Key) : (spell 61 key scale).modifier = 0 ↔ scale.isChromatic = true := by
  have hstep : ∀ flat, (spellStep 1 flat).2 ≠ 0 := by decide
  unfold spell
  rcases scale.isChromatic with _ | _ <;> simp [hstep]

theorem spell_scale_eq_iff :
    (∀ note key, spell note key scale = spell note key scale') ↔ scale.isChromatic = scale'.isChromatic := by
  constructor
  · intro h
    rw [Bool.eq_iff_iff, ← modifier_eq_zero_iff (.midi middleC), ← modifier_eq_zero_iff (.midi middleC), h]
  · intro h note key
    simp only [spell, h]

/-- Over equal steps a chord without a name is a major one or stacks every other step. -/
theorem degreeChord_scale_eq (hintervals : scale.intervals = scale'.intervals)
    (h : scale.isChromatic = scale'.isChromatic) (degree : Int) (name : Option String) (root : Int) (octaves : Nat) :
    degreeChord degree name scale root octaves = degreeChord degree name scale' root octaves := by
  simp only [degreeChord, resolveNote, exactNote, hintervals, h]

/-- Over the steps of the chromatic scale the two are not the same. -/
theorem degreeChord_of_semitones (h : scale.intervals = (named "chromatic").intervals) :
    degreeChord 1 none scale middleC 1 = if scale.isChromatic then [60, 64, 67] else [60, 62, 64] := by
  unfold degreeChord resolveNote exactNote
  rw [h]
  rcases scale.isChromatic with _ | _ <;> decide +kernel

theorem degreeChord_eq_iff {small : Char → List Char} (hsmall : SmallForms small) {a b : String}
    (h : normalized small a = normalized small b) :
    (∀ degree name root octaves,
      degreeChord degree name (named a) root octaves = degreeChord degree name (named b) root octaves) ↔
      (named a).isChromatic = (named b).isChromatic := by
  have hintervals := intervals_eq hsmall h
  constructor
  · intro hchords
    by_contra hne
    have hchromatic : normalized small "chromatic" = "chromatic".toList := ((isChromatic_iff hsmall _).mp (by decide)).1
    have hname : normalized small a = normalized small "chromatic" := by
      rw [hchromatic]
      by_contra hother
      exact hne ((isChromatic_eq_iff hsmall h).mpr fun heq => (hother heq).elim)
    have hsteps := intervals_eq hsmall hname
    have hsteps' := hintervals.symm.trans hsteps
    have hsame := hchords 1 none middleC 1
    rw [degreeChord_of_semitones hsteps, degreeChord_of_semitones hsteps'] at hsame
    revert hne hsame
    rcases (named a).isChromatic with _ | _ <;> rcases (named b).isChromatic with _ | _ <;> decide
  · exact degreeChord_scale_eq hintervals

end Harmony

open Harmony

/-- **A scale may be given by any name that is looked up alike**, as far as steps
    and notes of degrees go.  Chords without a name and the spelling of notes also
    depend on whether the name is asked for as the chromatic one, and they are the
    same just when that is the same: unless one of the names is a chromatic one
    with separators and the other is without.  Then every pattern is played the
    same under either name. -/
theorem scale_names_interchangeable {small : Char → List Char} (hsmall : SmallForms small) {a b : String}
    (h : normalized small a = normalized small b) :
    (named a).intervals = (named b).intervals ∧
    (∀ root degree octave modifier,
      exactNote root degree (named a) octave modifier = exactNote root degree (named b) octave modifier ∧
      resolveNote root degree (named a) octave modifier = resolveNote root degree (named b) octave modifier) ∧
    ((named a).isChromatic = (named b).isChromatic ↔ AskedAlike small a b) ∧
    ((∀ note key, spell note key (named a) = spell note key (named b)) ↔ AskedAlike small a b) ∧
    ((∀ degree name root octaves,
      degreeChord degree name (named a) root octaves = degreeChord degree name (named b) root octaves) ↔
      AskedAlike small a b) ∧
    (AskedAlike small a b → ∀ (text : String) (options : Options) (n : Nat),
      played text { options with scale := some (named a) } n =
        played text { options with scale := some (named b) } n) := by
  have hintervals := intervals_eq hsmall h
  have hasked := isChromatic_eq_iff hsmall h
  refine ⟨hintervals, ?_, hasked, spell_scale_eq_iff.trans hasked, (degreeChord_eq_iff hsmall h).trans hasked, ?_⟩
  · intro root degree octave modifier
    have hnote : exactNote root degree (named a) octave modifier = exactNote root degree (named b) octave modifier := by
      simp only [exactNote, hintervals]
    exact ⟨hnote, by simp only [resolveNote, hnote]⟩
  · intro halike text options n
    have hexchanged : (Renaming.ofScaleNames hintervals (hasked.mpr halike)).options
          { options with scale := some (named a) } = { options with scale := some (named b) } := by
      simp only [Renaming.options, Renaming.ofScaleNames, Option.map_some, Equiv.swap_apply_left, Option.map_id_fun, id]
    rw [← hexchanged, played_renamed]

/-- Capitals, a dash and the kelvin sign make no difference. -/
theorem kelvinName_interchangeable :
    normalized (fun c => [foldCase c]) "\u212aUMO-I" = normalized (fun c => [foldCase c]) "kumoi" ∧
    lookup "kumoi" = some [2, 1, 4, 2, 3] ∧
    (named "\u212aUMO-I").intervals = (named "kumoi").intervals ∧
    (∀ note key, spell note key (named "\u212aUMO-I") = spell note key (named "kumoi")) ∧
    played "i v^7 (0 4)+<1 2>" { scale := some (named "\u212aUMO-I") } 8 =
      played "i v^7 (0 4)+<1 2>" { scale := some (named "kumoi") } 8 := by
  have hname : normalized (fun c => [foldCase c]) "\u212aUMO-I" = normalized (fun c => [foldCase c]) "kumoi" := by
    decide +kernel
  have halike : AskedAlike (fun c => [foldCase c]) "\u212aUMO-I" "kumoi" := by
    intro hchromatic
    exact absurd hchromatic (by decide +kernel)
  obtain ⟨hintervals, -, -, hspell, -, hplayed⟩ := scale_names_interchangeable smallForms_foldCase hname
  exact ⟨hname, by decide +kernel, hintervals, hspell.mpr halike, hplayed halike "i v^7 (0 4)+<1 2>" {} 8⟩

/-- The chromatic scale with a dash in its name is looked up as the chromatic one,
    but its notes are spelled as degrees and its chords stack steps. -/
theorem dashedChromatic_not_chromatic :
    normalized (fun c => [foldCase c]) "chro-matic" = normalized (fun c => [foldCase c]) "chromatic" ∧
    lookup "chro-matic" = lookup "chromatic" ∧
    (named "chro-matic").isChromatic = false ∧ (named "chromatic").isChromatic = true ∧
    (spell 61 (.name "C4") (named "chro-matic")).text = "#0" ∧
    (spell 61 (.name "C4") (named "chromatic")).text = "1" ∧
    degreeChord 1 none (named "chro-matic") middleC 1 = [60, 62, 64] ∧
    degreeChord 1 none (named "chromatic") middleC 1 = [60, 64, 67] := by
  decide +kernel

end NumberedMelody
