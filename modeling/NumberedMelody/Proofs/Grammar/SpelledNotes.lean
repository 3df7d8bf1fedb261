/-
  NumberedMelody/Proofs/Grammar/SpelledNotes.lean
  ===============================================
  **Spelled notes as notation.**  The text of a spelled note is octave marks, an
  accidental and a degree, and so are the marks and the degree of a pitch
  (`marks_spelled`).  A degree of one digit is read back as it was spelled
  (`items_spelled`).  The grammar writes ten and eleven with letters though, and
  the spelling writes them with digits: two digits are two tones
  (`items_two_digits`).
-/
import Mathlib.Algebra.BigOperators.Group.List.Basic
import Mathlib.Algebra.Ring.Int.Defs
import NumberedMelody.Proofs.Grammar.Juxtaposition
import NumberedMelody.Proofs.Harmony.Octaves

namespace NumberedMelody

open Reader

namespace Grammar

/-! ### Marks -/

theorem totalShift_replicate (count : Nat) (shift : Int) : totalShift (List.replicate count shift) = count * shift := by
  rw [totalShift, ← List.sum_eq_foldl, List.sum_replicate, nsmul_eq_mul]

/-- A run of one octave mark counts it. -/
theorem octaveMarks_replicate {count : Nat} (hpos : 0 < count) {c : Char} (hc : c = '^' ∨ c = '_') {rest : List Char}
    (hrest : oneOf "^_" rest = none) :
    octaveMarks (List.replicate count c ++ rest) = some ((count : Int) * (if c = '^' then 1 else -1), rest) := by
  have hrun : ∀ mark ∈ List.replicate count c, "^_".toList.contains mark = true := by
    intro mark hmark
    obtain rfl := List.eq_of_mem_replicate hmark
    rcases hc with rfl | rfl <;> rfl
  have hne : List.replicate count c ≠ [] := by simpa using Nat.ne_of_gt hpos
  refine bind_eq_some.mpr ⟨_, rest, many1_satisfy hne hrun hrest, pure_eq_some.mpr ⟨?_, rfl⟩⟩
  rw [List.map_replicate, totalShift_replicate]

/-- **Octave marks are read as the octave that they spell.** -/
theorem octaveMarks_spelled {octave : Int} (hshift : octave ≠ 0) {rest : List Char} (hrest : oneOf "^_" rest = none) :
    octaveMarks ((Harmony.octaveMarks octave).toList ++ rest) = some (octave, rest) := by
  unfold Harmony.octaveMarks
  by_cases hup : 0 < octave
  · rw [if_pos hup, String.toList_ofList, octaveMarks_replicate (by omega) (.inl rfl) hrest, if_pos rfl, mul_one,
      Int.toNat_of_nonneg hup.le]
  · rw [if_neg hup, String.toList_ofList, octaveMarks_replicate (by omega) (.inr rfl) hrest, if_neg (by decide),
      mul_neg_one, Int.toNat_of_nonneg (by omega), neg_neg]

/-- **An accidental of at most one semitone is read as what it spells.** -/
theorem accidentals_spelled {modifier : Int} (hbound : modifier.natAbs ≤ 1) (hshift : modifier ≠ 0) {rest : List Char}
    (hrest : oneOf "#b" rest = none) :
    accidentals ((Harmony.accidentalMark modifier).toList ++ rest) = some (modifier, rest) := by
  have heither : modifier = 1 ∨ modifier = -1 := by omega
  rcases heither with rfl | rfl
  · have hrun := many1_satisfy (List.cons_ne_nil '#' []) (List.forall_mem_singleton.mpr rfl) hrest
    exact bind_eq_some.mpr ⟨['#'], rest, hrun, rfl⟩
  · have hrun := many1_satisfy (List.cons_ne_nil 'b' []) (List.forall_mem_singleton.mpr rfl) hrest
    exact bind_eq_some.mpr ⟨['b'], rest, hrun, rfl⟩

/-- The marks of a spelled note, as overrides: what is not moved is not marked. -/
def spelledOverrides (octave modifier : Int) : Overrides :=
  { octave := if octave = 0 then none else some octave, modifier := if modifier = 0 then none else some modifier }

@[simp] theorem spelledOverrides_octave (octave modifier : Int) :
    (spelledOverrides octave modifier).octave.getD 0 = octave := by
  unfold spelledOverrides
  split <;> simp_all

@[simp] theorem spelledOverrides_modifier (octave modifier : Int) :
    (spelledOverrides octave modifier).modifier.getD 0 = modifier := by
  unfold spelledOverrides
  dsimp only
  split <;> simp_all

/-- The marks of a spelled note. -/
def spelledMarks (octave modifier : Int) : List Char :=
  (Harmony.octaveMarks octave).toList ++ (Harmony.accidentalMark modifier).toList

/-- The ten digits. -/
def digitSigns : List Char := ['0', '1', '2', '3', '4', '5', '6', '7', '8', '9']

/-- With a digit no mark starts and nothing ends, and it is a degree. -/
theorem read_digit {c : Char} (hc : c ∈ digitSigns) (rest : List Char) :
    oneOf "^_" (c :: rest) = none ∧ oneOf "#b" (c :: rest) = none ∧ mark (c :: rest) = none ∧
      boundary (c :: rest) = none ∧ degree (c :: rest) = some ((Decimal.digitsValue [c] : Int), rest) := by
  simp only [digitSigns, List.mem_cons, List.not_mem_nil, or_false] at hc
  rcases hc with rfl | rfl | rfl | rfl | rfl | rfl | rfl | rfl | rfl | rfl <;> exact ⟨rfl, rfl, rfl, rfl, rfl⟩

/-- An accidental is a sign or none. -/
theorem accidentalMark_cases (modifier : Int) :
    (Harmony.accidentalMark modifier).toList = [] ∨ (Harmony.accidentalMark modifier).toList = ['#'] ∨
      (Harmony.accidentalMark modifier).toList = ['b'] := by
  unfold Harmony.accidentalMark
  split
  · exact .inr (.inl rfl)
  · split
    · exact .inr (.inr rfl)
    · exact .inl rfl

/-- Behind octave marks neither more of them follow nor an end. -/
theorem unread_behind_octaveMarks (modifier : Int) {c : Char} (hc : c ∈ digitSigns) (rest : List Char) :
    oneOf "^_" ((Harmony.accidentalMark modifier).toList ++ c :: rest) = none ∧
      boundary ((Harmony.accidentalMark modifier).toList ++ c :: rest) = none := by
  obtain ⟨hoctave, -, -, hboundary, -⟩ := read_digit hc rest
  rcases accidentalMark_cases modifier with hmark | hmark | hmark <;> rw [hmark]
  · exact ⟨hoctave, hboundary⟩
  · exact ⟨rfl, rfl⟩
  · exact ⟨rfl, rfl⟩

theorem many_mark_accidental {modifier : Int} (hbound : modifier.natAbs ≤ 1) {c : Char} (hc : c ∈ digitSigns)
    (rest : List Char) :
    many mark ((Harmony.accidentalMark modifier).toList ++ c :: rest) =
      some (if modifier = 0 then [] else [.accidental modifier], c :: rest) := by
  obtain ⟨-, hflat, hnone, -⟩ := read_digit hc rest
  by_cases hshift : modifier = 0
  · subst hshift
    exact many_of_none hnone
  · have hread := accidentals_spelled hbound hshift hflat
    have heither : modifier = 1 ∨ modifier = -1 := by omega
    have hmark : mark ((Harmony.accidentalMark modifier).toList ++ c :: rest) =
        some (.accidental modifier, c :: rest) := by
      refine firstOf_cons_eq_some.mpr (.inr ⟨?octave, firstOf_cons_eq_some.mpr (.inr ⟨?duration,
        firstOf_cons_eq_some.mpr (.inr ⟨?change, firstOf_cons_eq_some.mpr (.inl ?accidental)⟩)⟩)⟩)
      case accidental => exact map_eq_some.mpr ⟨modifier, hread, rfl⟩
      all_goals rcases heither with rfl | rfl <;> rfl
    rw [many_cons hmark, many_of_none hnone, if_neg hshift]
    rfl

/-- **The marks of a spelled note are read as its octave and its accidental.** -/
theorem marks_spelled {octave modifier : Int} (hbound : modifier.natAbs ≤ 1) {c : Char} (hc : c ∈ digitSigns)
    (rest : List Char) :
    marks (spelledMarks octave modifier ++ c :: rest) = some (spelledOverrides octave modifier, c :: rest) := by
  have haccidental := many_mark_accidental hbound hc rest
  have hmany : many mark (spelledMarks octave modifier ++ c :: rest) =
      some ((if octave = 0 then [] else [.octave octave]) ++ (if modifier = 0 then [] else [.accidental modifier]),
        c :: rest) := by
    unfold spelledMarks
    rw [List.append_assoc]
    by_cases hshift : octave = 0
    · subst hshift
      exact haccidental
    · have hnext := (unread_behind_octaveMarks modifier hc rest).1
      have hmark : mark ((Harmony.octaveMarks octave).toList ++
            ((Harmony.accidentalMark modifier).toList ++ c :: rest)) =
          some (.octave octave, (Harmony.accidentalMark modifier).toList ++ c :: rest) :=
        firstOf_cons_eq_some.mpr (.inl (map_eq_some.mpr ⟨octave, octaveMarks_spelled hshift hnext, rfl⟩))
      rw [many_cons hmark, haccidental, if_neg hshift]
      rfl
  refine map_eq_some.mpr ⟨_, hmany, ?_⟩
  unfold spelledOverrides
  split <;> split <;> simp [Mark.addTo]

/-! ### Rules with other signs -/

/-- The characters of spelled notes. -/
def spelledSigns : List Char := ['^', '_', '#', 'b'] ++ digitSigns

/-- Whatever the reader recognises is behind a sign that spelled notes do not have. -/
class Foreign {α : Type} (p : Reader α) : Prop where
  foreign : ∀ {text result}, p text = some result → ∃ c ∈ text, c ∉ spelledSigns

namespace Foreign

variable {α β : Type} {p : Reader α} {text : List Char}

theorem eq_none (p : Reader α) [Foreign p] (h : ∀ c ∈ text, c ∈ spelledSigns) : p text = none := by
  cases hp : p text with
  | none => rfl
  | some result =>
    obtain ⟨c, hc, hforeign⟩ := foreign hp
    exact absurd (h c hc) hforeign

/-- Such an alternative does not count. -/
theorem firstOf_cons (p : Reader α) [Foreign p] (alternatives : List (Reader α)) (h : ∀ c ∈ text, c ∈ spelledSigns) :
    firstOf (p :: alternatives) text = firstOf alternatives text := by
  simp only [firstOf, eq_none p h]

theorem of_satisfy {test : Char → Bool} (h : spelledSigns.any test = false) : Foreign (satisfy test) where
  foreign {text result} hread := by
    obtain ⟨c, rest⟩ := result
    obtain ⟨rfl, hc⟩ := satisfy_eq_some.mp hread
    refine ⟨c, List.mem_cons_self .., ?_⟩
    intro hsign
    exact absurd hc (List.any_eq_false.mp h c hsign)

instance [Foreign p] {f : α → Reader β} : Foreign (p >>= f) where
  foreign h := by
    obtain ⟨a, mid, hp, -⟩ := bind_eq_some.mp h
    exact foreign hp

instance [Lossless p] {f : α → Reader β} [∀ a, Foreign (f a)] : Foreign (p >>= f) where
  foreign h := by
    obtain ⟨a, mid, hp, hf⟩ := bind_eq_some.mp h
    obtain ⟨c, hc, hforeign⟩ := foreign hf
    exact ⟨c, (Lossless.suffix hp).subset hc, hforeign⟩

instance [Foreign p] (f : α → β) : Foreign (f <$> p) where
  foreign {_ result} h := by
    obtain ⟨b, rest⟩ := result
    obtain ⟨a, hp, -⟩ := map_eq_some.mp h
    exact foreign hp

instance [Foreign p] (f : α → Option β) : Foreign (mapSome f p) where
  foreign {_ result} h := by
    obtain ⟨b, rest⟩ := result
    obtain ⟨a, hp, -⟩ := mapSome_eq_some.mp h
    exact foreign hp

instance [Foreign p] : Foreign (consumed p) where
  foreign h := by
    unfold consumed at h
    split at h
    · cases h
    · next hp => exact foreign hp

instance [Foreign p] : Foreign (many1 p) := by
  unfold many1
  infer_instance

instance : Foreign (firstOf ([] : List (Reader α))) where
  foreign h := by cases h

instance {alternatives : List (Reader α)} [Foreign p] [Foreign (firstOf alternatives)] :
    Foreign (firstOf (p :: alternatives)) where
  foreign h := by
    rcases firstOf_cons_eq_some.mp h with hp | ⟨-, hmore⟩
    · exact foreign hp
    · exact foreign hmore

instance {opening closing : Char} [Foreign (char opening)] : Foreign (between opening closing p) := by
  unfold between
  infer_instance

instance {c : Char} {more : List Char} [Foreign (char c)] : Foreign (exactly (c :: more)) :=
  inferInstanceAs (Foreign (char c >>= fun _ => exactly more))

/-! #### Signs -/

instance : Foreign (char '|') := of_satisfy rfl
instance : Foreign (char '(') := of_satisfy rfl
instance : Foreign (char '[') := of_satisfy rfl
instance : Foreign (char '<') := of_satisfy rfl
instance : Foreign (char '\x7b') := of_satisfy rfl
instance : Foreign (char '.') := of_satisfy rfl
instance : Foreign (char '?') := of_satisfy rfl
instance : Foreign (char 'r') := of_satisfy rfl
instance : Foreign (oneOf "iv") := of_satisfy rfl
instance : Foreign (satisfy Rhythm.isMark) := of_satisfy rfl
instance : Foreign variableName := of_satisfy rfl

instance : Foreign separators where
  foreign {text result} h := by
    obtain ⟨taken, rest⟩ := result
    obtain ⟨rfl, hne⟩ := run1_eq_some h
    obtain ⟨c, hc⟩ := List.exists_mem_of_ne_nil taken hne
    refine ⟨c, List.mem_append_left _ hc, ?_⟩
    intro hsign
    have hnone : spelledSigns.any Text.isSeparator = false := rfl
    exact absurd (test_of_mem_run1 h c hc) (List.any_eq_false.mp hnone c hsign)

end Foreign

/-! #### Rules -/

section Rules

instance : Foreign escapedDecimal := by
  unfold escapedDecimal
  infer_instance

instance : Foreign escapedOctave := by
  unfold escapedOctave
  infer_instance

instance : Foreign durationMarks := by
  unfold durationMarks durationMark
  infer_instance

instance : Foreign durationAhead := by
  unfold durationAhead
  infer_instance

instance : Foreign decimal := by
  unfold decimal
  infer_instance

instance : Foreign blank := by
  unfold blank
  infer_instance

instance : Foreign bar := by
  unfold bar
  infer_instance

instance : Foreign rest := by
  unfold rest
  infer_instance

instance : Foreign randomPitch := by
  unfold randomPitch
  infer_instance

instance : Foreign randomInteger := by
  unfold randomInteger
  infer_instance

instance : Foreign range := by
  unfold range
  infer_instance

instance : Foreign numeral := by
  unfold numeral
  infer_instance

instance : Foreign block := by
  unfold block
  infer_instance

instance : Foreign variableUse := by
  unfold variableUse
  infer_instance

instance : Foreign together := by
  unfold together
  infer_instance

variable (item : Reader Node)

instance : Foreign (assignment item) := by
  unfold assignment
  infer_instance

instance : Foreign (list item) := by
  unfold list
  infer_instance

instance : Foreign (subdivision item) := by
  unfold subdivision
  infer_instance

instance : Foreign (cycle item) := by
  unfold cycle
  infer_instance

instance : Foreign (listLike item) := by
  unfold listLike
  infer_instance

instance {opening closing : Char} {replayed : Bool} [Foreign (char opening)] :
    Foreign (repetition item opening closing replayed) := by
  unfold repetition
  infer_instance

end Rules

/-- What is written in the signs of spelled notes is a control item, a chord or a
    pitch, if it is an item. -/
theorem item_of_spelledSigns {text : List Char} (h : ∀ c ∈ text, c ∈ spelledSigns) :
    item text = firstOf [control, chord, pitch] text := by
  rw [item_eq, itemOver_apply]
  simp only [Foreign.eq_none blank h, Foreign.eq_none bar h, Foreign.eq_none block h, Foreign.eq_none range h,
    Foreign.eq_none numeral h, Foreign.eq_none rest h, Foreign.eq_none randomPitch h, Foreign.eq_none together h,
    Foreign.eq_none variableUse h, Foreign.eq_none randomInteger h, Foreign.eq_none (assignment item) h,
    Foreign.eq_none (repetition item '[' ']' true) h, Foreign.eq_none (repetition item '(' ')' false) h,
    Foreign.eq_none (listLike item) h, Foreign.eq_none (subdivision item) h, Foreign.eq_none (cycle item) h,
    solid, firstOf]

/-! ### Spelled notes -/

section Spelled

variable (octave : Int) {modifier : Int} {c : Char} {more : List Char}

theorem mem_spelledSigns (modifier : Int) (hc : c ∈ digitSigns) (hmore : ∀ d ∈ more, d ∈ digitSigns) :
    ∀ sign ∈ spelledMarks octave modifier ++ c :: more, sign ∈ spelledSigns := by
  have hdigit : ∀ d ∈ digitSigns, d ∈ spelledSigns := fun d hd => List.mem_append_right _ hd
  have hoctave : ∀ sign ∈ (Harmony.octaveMarks octave).toList, sign ∈ spelledSigns := by
    unfold Harmony.octaveMarks
    intro sign hsign
    split at hsign <;> rw [String.toList_ofList] at hsign <;> obtain rfl := List.eq_of_mem_replicate hsign
    · exact .head _
    · exact .tail _ (.head _)
  have haccidental : ∀ sign ∈ (Harmony.accidentalMark modifier).toList, sign ∈ spelledSigns := by
    intro sign hsign
    rcases accidentalMark_cases modifier with hmark | hmark | hmark <;> rw [hmark] at hsign
    · cases hsign
    · obtain rfl := List.mem_singleton.mp hsign
      exact .tail _ (.tail _ (.head _))
    · obtain rfl := List.mem_singleton.mp hsign
      exact .tail _ (.tail _ (.tail _ (.head _)))
  intro sign hsign
  unfold spelledMarks at hsign
  rcases List.mem_append.mp hsign with hmark | hdigits
  · exact (List.mem_append.mp hmark).elim (hoctave sign) (haccidental sign)
  · rcases List.mem_cons.mp hdigits with rfl | hmem
    · exact hdigit sign hc
    · exact hdigit sign (hmore sign hmem)

/-- The octave marks of a note do not stand alone. -/
theorem control_spelled (hc : c ∈ digitSigns) (hmore : ∀ d ∈ more, d ∈ digitSigns) :
    control (spelledMarks octave modifier ++ c :: more) = none := by
  have hsigns := mem_spelledSigns octave modifier hc hmore
  obtain ⟨hnext, hboundary⟩ := unread_behind_octaveMarks modifier hc more
  cases hcontrol : control (spelledMarks octave modifier ++ c :: more) with
  | none => rfl
  | some result =>
    obtain ⟨⟨taken, change⟩, rest, hconsumed, -⟩ := bind_eq_some.mp hcontrol
    obtain ⟨change', mid, hchange, hrest⟩ := bind_eq_some.mp (consumed_eq_some.mp hconsumed).2
    obtain ⟨⟨⟩, mid', hends, -⟩ := bind_eq_some.mp hrest
    iterate 3 rw [Foreign.firstOf_cons _ _ hsigns] at hchange
    rcases firstOf_cons_eq_some.mp hchange with hshift | ⟨-, hchange⟩
    case inr =>
      rw [Foreign.firstOf_cons _ _ hsigns] at hchange
      cases hchange
    obtain ⟨shift, hmarks, -⟩ := map_eq_some.mp hshift
    by_cases hshift : octave = 0
    · subst hshift
      have hnone : octaveMarks (spelledMarks 0 modifier ++ c :: more) = none := bind_of_none (bind_of_none hnext _) _
      cases hnone.symm.trans hmarks
    · unfold spelledMarks at hmarks
      rw [List.append_assoc, octaveMarks_spelled hshift hnext] at hmarks
      obtain ⟨-, rfl⟩ := Prod.mk.inj (Option.some.inj hmarks)
      rw [hboundary] at hends
      cases hends

/-- A spelled note, as a tone. -/
def spelledTone (octave modifier : Int) (digit : Char) : Pitch where
  text := String.ofList (spelledMarks octave modifier ++ [digit])
  overrides := spelledOverrides octave modifier
  degree := Decimal.digitsValue [digit]

theorem tone_spelled (hbound : modifier.natAbs ≤ 1) (hc : c ∈ digitSigns) (more : List Char) :
    tone (spelledMarks octave modifier ++ c :: more) = some (spelledTone octave modifier c, more) := by
  obtain ⟨-, -, -, -, hdegree⟩ := read_digit hc more
  refine bind_eq_some.mpr ⟨(String.ofList (spelledMarks octave modifier ++ [c]), spelledOverrides octave modifier,
    Decimal.digitsValue [c]), more, consumed_eq_some.mpr ⟨?_, ?_⟩, rfl⟩
  · rw [String.toList_ofList, List.append_assoc]
    rfl
  · exact bind_eq_some.mpr ⟨_, _, marks_spelled hbound hc more, bind_eq_some.mpr ⟨_, more, hdegree, rfl⟩⟩

/-- **A degree of one digit is read back.** -/
theorem items_spelled (hbound : modifier.natAbs ≤ 1) (hc : c ∈ digitSigns) :
    items (spelledMarks octave modifier ++ [c]) = some ([.event (.pitch (spelledTone octave modifier c))], []) := by
  have hnone : ∀ d ∈ ([] : List Char), d ∈ digitSigns := List.forall_mem_nil _
  have hsigns := mem_spelledSigns octave modifier hc hnone
  have hduration := optional_of_none (Foreign.eq_none durationAhead hsigns)
  have htone := tone_spelled octave hbound hc []
  have hchord : chord (spelledMarks octave modifier ++ [c]) = none := by
    have hnothing : many1 tone [] = none := rfl
    simp only [chord, consumed, bind, Reader.bind, hduration, htone, hnothing]
  have hpitch : pitch (spelledMarks octave modifier ++ [c]) =
      some (.event (.pitch (spelledTone octave modifier c)), []) := by
    refine bind_eq_some.mpr ⟨((spelledTone octave modifier c).text, none, spelledTone octave modifier c), [],
      consumed_eq_some.mpr ⟨?_, ?_⟩, rfl⟩
    · rw [List.append_nil]
      exact String.toList_ofList.symm
    · exact bind_eq_some.mpr ⟨none, _, hduration, bind_eq_some.mpr ⟨_, [], htone, rfl⟩⟩
  apply items_of_item
  rw [item_of_spelledSigns hsigns]
  simp only [firstOf, control_spelled octave hc hnone, hchord, hpitch]

/-- **Two digits are two tones.** -/
theorem items_two_digits (hbound : modifier.natAbs ≤ 1) (hc : c ∈ digitSigns) {d : Char} (hd : d ∈ digitSigns) :
    items (spelledMarks octave modifier ++ [c, d]) =
      some ([.event (.chord
        { text := String.ofList (spelledMarks octave modifier ++ [c, d])
          tones := [spelledTone octave modifier c, spelledTone 0 0 d] })], []) := by
  have hmore : ∀ other ∈ [d], other ∈ digitSigns := List.forall_mem_singleton.mpr hd
  have hsigns := mem_spelledSigns octave modifier hc hmore
  have hduration := optional_of_none (Foreign.eq_none durationAhead hsigns)
  have hfirst := tone_spelled octave hbound hc [d]
  have hzero : (0 : Int).natAbs ≤ 1 := Nat.zero_le 1
  have hsecond : tone [d] = some (spelledTone 0 0 d, []) := tone_spelled 0 hzero hd []
  have hothers : many1 tone [d] = some ([spelledTone 0 0 d], []) :=
    bind_eq_some.mpr ⟨_, [], hsecond, bind_eq_some.mpr ⟨[], [], many_of_none rfl, rfl⟩⟩
  have hchord : chord (spelledMarks octave modifier ++ [c, d]) = some (.event (.chord
      { text := String.ofList (spelledMarks octave modifier ++ [c, d])
        tones := [spelledTone octave modifier c, spelledTone 0 0 d] }), []) := by
    refine bind_eq_some.mpr ⟨(String.ofList (spelledMarks octave modifier ++ [c, d]), none,
      [spelledTone octave modifier c, spelledTone 0 0 d], none), [], consumed_eq_some.mpr ⟨?_, ?_⟩, rfl⟩
    · rw [List.append_nil, String.toList_ofList]
    · exact bind_eq_some.mpr ⟨none, _, hduration, bind_eq_some.mpr ⟨_, _, hfirst, bind_eq_some.mpr ⟨_, _, hothers,
        bind_eq_some.mpr ⟨none, [], optional_of_none rfl, rfl⟩⟩⟩⟩
  apply items_of_item
  rw [item_of_spelledSigns hsigns]
  simp only [firstOf, control_spelled octave hc hmore, hchord]

end Spelled

end Grammar

/-! ### The text of a spelled note -/

namespace Harmony

open Grammar

theorem spell_text (note : Int) (key : Key) (scale : Scale) :
    (spell note key scale).text.toList =
      spelledMarks (spell note key scale).octave (spell note key scale).modifier ++
        (toString (spell note key scale).degree).toList := by
  simp only [spell, spelledMarks, String.toList_append]

theorem natAbs_spell_modifier_le (note : Int) (key : Key) (scale : Scale) :
    (spell note key scale).modifier.natAbs ≤ 1 := by
  unfold spell
  cases scale.isChromatic with
  | true => exact Nat.zero_le 1
  | false => exact natAbs_spellStep_le ..

/-- Ten and eleven are steps of the chromatic scale. -/
theorem ten_le_spell_degree (note : Int) (key : Key) (scale : Scale) :
    10 ≤ (spell note key scale).degree ↔ scale.isChromatic = true ∧ 10 ≤ note % 12 := by
  have hlow : 0 ≤ note % 12 := by omega
  have hhigh : note % 12 < 12 := by omega
  unfold spell
  cases scale.isChromatic with
  | true => simp
  | false =>
    obtain ⟨-, hseven, -⟩ := spellStep_spells hlow hhigh
      (6 ≤ tonalPitchClass note key && tonalPitchClass note key ≤ 12)
    simp only [Bool.false_eq_true, if_false, false_and, iff_false]
    omega

theorem digit_of_degree {degree : Int} (hlow : 0 ≤ degree) (hhigh : degree < 10) :
    ∃ c ∈ digitSigns, (toString degree).toList = [c] ∧ (Decimal.digitsValue [c] : Int) = degree := by
  interval_cases degree
  all_goals exact ⟨_, by decide, rfl, rfl⟩

theorem digits_of_degree {degree : Int} (hlow : 10 ≤ degree) (hhigh : degree < 12) :
    ∃ c ∈ digitSigns, (toString degree).toList = ['1', c] ∧ (Decimal.digitsValue ['1', c] : Int) = degree := by
  interval_cases degree
  · exact ⟨'0', by decide, rfl, rfl⟩
  · exact ⟨'1', by decide, rfl, rfl⟩

/-- **A spelled note is notation for itself as long as its degree has one digit.**
    The text reads as one pitch with the degree, the octave and the accidental that
    were spelled, for every note, key and scale but for the steps ten and eleven of
    the chromatic scale: their digits are two tones of a chord, since the notation
    writes them with letters. -/
theorem spelled_note_read_iff (note : Int) (key : Key) (scale : Scale) :
    (∃ p, readPattern (spell note key scale).text = .ok [.event (.pitch p)] ∧
        p.degree = (spell note key scale).degree ∧
        p.overrides.octave.getD 0 = (spell note key scale).octave ∧
        p.overrides.modifier.getD 0 = (spell note key scale).modifier) ↔
      scale.isChromatic = false ∨ note % 12 < 10 := by
  obtain ⟨hlow, hhigh⟩ := spell_degree_bounds note key scale
  have hbound := natAbs_spell_modifier_le note key scale
  have htext := spell_text note key scale
  have hten := ten_le_spell_degree note key scale
  rcases lt_or_ge (spell note key scale).degree 10 with hone | htwo
  · obtain ⟨c, hc, hdigits, hvalue⟩ := digit_of_degree hlow hone
    have hread : readPattern (spell note key scale).text = .ok [.event (.pitch (spelledTone
        (spell note key scale).octave (spell note key scale).modifier c))] := by
      rw [readPattern_eq_ok, htext, hdigits]
      exact items_spelled _ hbound hc
    have hsingle : scale.isChromatic = false ∨ note % 12 < 10 := by
      rw [← Bool.not_eq_true, ← not_le, ← not_and_or, ← hten]
      exact hone.not_ge
    exact iff_of_true ⟨_, hread, hvalue, spelledOverrides_octave .., spelledOverrides_modifier ..⟩ hsingle
  · obtain ⟨c, hc, hdigits, -⟩ := digits_of_degree htwo hhigh
    have hone : '1' ∈ digitSigns := by decide
    obtain ⟨chord, hread⟩ : ∃ chord, readPattern (spell note key scale).text = .ok [.event (.chord chord)] := by
      have hitems := items_two_digits (spell note key scale).octave hbound hone hc
      rw [← hdigits, ← htext] at hitems
      exact ⟨_, readPattern_eq_ok.mpr hitems⟩
    have hsteps := hten.mp htwo
    refine iff_of_false ?_ (by simp [hsteps.1, hsteps.2])
    rintro ⟨p, hpitch, -⟩
    rw [hread] at hpitch
    cases hpitch

/-- The tenth step is written with two digits, and these are two tones. -/
theorem tenth_step_read_as_chord :
    (spell 70 (.name "C4") (.named "chromatic")).text = "10" ∧
      (∃ chord, readPattern (spell 70 (.name "C4") (.named "chromatic")).text = .ok [.event (.chord chord)] ∧
        chord.tones.map Pitch.degree = [1, 0]) ∧
      ¬ ∃ p, readPattern (spell 70 (.name "C4") (.named "chromatic")).text = .ok [.event (.pitch p)] ∧
        p.degree = (spell 70 (.name "C4") (.named "chromatic")).degree := by
  have htext : (spell 70 (.name "C4") (.named "chromatic")).text = "10" := by decide +kernel
  have hread : readPattern "10" = .ok [.event (.chord
      { text := "10", tones := [spelledTone 0 0 '1', spelledTone 0 0 '0'] })] :=
    readPattern_eq_ok.mpr (items_two_digits 0 (by decide : (0 : Int).natAbs ≤ 1) (by decide : '1' ∈ digitSigns)
      (by decide : '0' ∈ digitSigns))
  rw [htext]
  refine ⟨rfl, ⟨_, hread, rfl⟩, ?_⟩
  rintro ⟨p, hpitch, -⟩
  cases hread.symm.trans hpitch

end Harmony

end NumberedMelody
