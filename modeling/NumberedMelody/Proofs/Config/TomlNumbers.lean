/-
  NumberedMelody/Proofs/Config/TomlNumbers.lean
  =============================================
  **Numbers that are read back.**  Neither an integer nor a double is taken for
  a date, a time or a word, since its digits are followed by neither a minus
  nor a colon.  An integer is read from its digits; a finite double is written
  with the fewest digits that lie in its interval, and is read as the double
  nearest to them.
-/
import Mathlib
import NumberedMelody.Config.OptionsText
import NumberedMelody.Proofs.Config.TomlStrings
import NumberedMelody.Proofs.Decimal.Nearest
import NumberedMelody.Proofs.Decimal.Numerals
import NumberedMelody.Proofs.Decimal.Shortest

namespace NumberedMelody.Toml

open Reader

/-- A value ends where a line or an item of a list ends. -/
def Stops (rest : List Char) : Prop := ∃ c more, rest = c :: more ∧ c ∈ ['\n', ',', ']']

/-- The text is read as the document, whatever comes after it. -/
def ReadsAs (text : String) (d : Document) : Prop := ∀ rest, Stops rest → scalar (text.toList ++ rest) = some (d, rest)

theorem Stops.head {rest : List Char} (h : Stops rest) (test : Char → Bool)
    (htest : ['\n', ',', ']'].all (!test ·) = true) :
    ∀ c ∈ rest.head?, test c = false := by
  obtain ⟨c, more, rfl, hc⟩ := h
  intro d hd
  obtain rfl : c = d := Option.some.inj hd
  simpa using List.all_eq_true.mp htest c hc

theorem readsAs_stringText (text : String) : ReadsAs (stringText text) (.text text) := by
  intro rest hrest
  have hquotes : ∀ c ∈ rest.head?, c ≠ '"' ∧ c ≠ '\'' := fun c hc =>
    ⟨by simpa using hrest.head (· == '"') rfl c hc, by simpa using hrest.head (· == '\'') rfl c hc⟩
  exact firstOf_of_some (map_eq_some.mpr ⟨text, string_stringText text hquotes, rfl⟩)

/-! ### Neither a string nor a date nor a time -/

theorem string_eq_none {c : Char} (hquote : c ≠ '"') (happostrophe : c ≠ '\'') (rest : List Char) :
    string (c :: rest) = none := by
  have hbasic : multilineBasic (c :: rest) = none := bind_of_none (by rw [exactly_cons, if_neg hquote]) _
  have hliteral : multilineLiteral (c :: rest) = none := bind_of_none (by rw [exactly_cons, if_neg happostrophe]) _
  rw [string, firstOf_of_none hbasic, firstOf_of_none hliteral, firstOf_of_none (basicString_eq_none hquote rest),
    firstOf_singleton, literalString_eq_none happostrophe rest]

theorem digitsOfLength_eq_some {n : Nat} {text rest digits : List Char}
    (h : digitsOfLength n text = some (digits, rest)) :
    text = digits ++ rest ∧ digits.length = n ∧ ∀ c ∈ digits, c.isDigit = true := by
  induction n generalizing text digits with
  | zero =>
    obtain ⟨rfl, rfl⟩ := pure_eq_some.mp h
    exact ⟨rfl, rfl, fun _ hc => nomatch hc⟩
  | succ n ih =>
    obtain ⟨first, mid, hfirst, h⟩ := bind_eq_some.mp h
    obtain ⟨more, rest', hmore, h⟩ := bind_eq_some.mp h
    obtain ⟨rfl, rfl⟩ := pure_eq_some.mp h
    obtain ⟨rfl, hdigit⟩ := satisfy_eq_some.mp hfirst
    obtain ⟨rfl, rfl, hdigits⟩ := ih hmore
    exact ⟨rfl, rfl, List.forall_mem_cons.mpr ⟨hdigit, hdigits⟩⟩

/-- Digits, with something behind them that is neither a digit nor a sign. -/
structure Unsigned (digits rest : List Char) : Prop where
  isDigit : ∀ c ∈ digits, c.isDigit = true
  rest : ∀ c ∈ rest.head?, c.isDigit = false ∧ c ≠ ':' ∧ (c = '-' → digits = [])

theorem unsigned_minus (rest : List Char) : Unsigned [] ('-' :: rest) where
  isDigit := List.forall_mem_nil _
  rest c hc := by
    obtain rfl : '-' = c := Option.some.inj hc
    exact ⟨rfl, by decide, fun _ => rfl⟩

theorem field_char_eq_none {α : Type} {n low high : Nat} {sign : Char} (next : Nat → Reader α) {digits rest : List Char}
    (h : Unsigned digits rest) (hn : n ≠ 0) (hsign : sign = '-' ∨ sign = ':') :
    (do
      let value ← field n low high
      let _ ← char sign
      next value) (digits ++ rest) = none := by
  rw [Option.eq_none_iff_forall_ne_some]
  intro result hread
  obtain ⟨value, mid, hfield, hread⟩ := bind_eq_some.mp hread
  obtain ⟨c, after, hchar, -⟩ := bind_eq_some.mp hread
  obtain ⟨hfield, -⟩ := verify_eq_some.mp hfield
  obtain ⟨taken, htaken, -⟩ := map_eq_some.mp hfield
  obtain ⟨htext, hlength, htakenDigits⟩ := digitsOfLength_eq_some htaken
  obtain ⟨rfl, rfl⟩ := char_eq_some.mp hchar
  -- the digits in front of the sign are all the digits
  have hnext : c.isDigit = false := by rcases hsign with rfl | rfl <;> rfl
  have hrest : rest = c :: after := by
    have hdrop := congrArg (List.dropWhile Char.isDigit) htext
    rw [List.dropWhile_append_of_pos h.isDigit, List.dropWhile_append_of_pos htakenDigits,
      List.dropWhile_cons_of_neg (by rw [hnext]; exact Bool.false_ne_true)] at hdrop
    rw [← hdrop]
    cases rest with
    | nil => rfl
    | cons d more => exact (List.dropWhile_cons_of_neg (by rw [(h.rest d rfl).1]; exact Bool.false_ne_true)).symm
  obtain ⟨-, hcolon, hminus⟩ := h.rest c (by rw [hrest]; rfl)
  obtain rfl := hminus (hsign.resolve_right hcolon)
  rw [hrest, List.nil_append, List.self_eq_append_left] at htext
  exact hn (by rw [← hlength, htext]; rfl)

theorem moment_eq_none {digits rest : List Char} (h : Unsigned digits rest) : moment (digits ++ rest) = none := by
  have hdate : date (digits ++ rest) = none := field_char_eq_none _ h (by decide) (.inl rfl)
  have htime : time (digits ++ rest) = none := field_char_eq_none _ h (by decide) (.inr rfl)
  unfold moment
  rw [firstOf_of_none (bind_of_none hdate _), firstOf_of_none htime]
  rfl

/-! ### Unquoted numbers -/

/-- What is neither a string nor a date nor a time is a run of characters. -/
theorem scalar_eq_unquoted {text : List Char} (hstring : string text = none) (hmoment : moment text = none) :
    scalar text =
      mapSome unquoted (run1 fun c => c.isAlphanum || c = '+' || c = '-' || c = '.' || c = '_') text := by
  have hconsumed : consumed moment text = none := by
    unfold consumed
    rw [hmoment]
  exact (firstOf_of_none (bind_of_none hstring _)).trans
    ((firstOf_of_none (bind_of_none hconsumed _)).trans (firstOf_singleton _ _))

/-- Characters of a decimal number. -/
def isDecimalSign (c : Char) : Bool := c.isDigit || c = '.' || c = '-'

theorem mem_of_mem_sign {text : List Char} {c : Char} (h : c ∈ (Decimal.sign text).2) : c ∈ text := by
  unfold Decimal.sign at h
  split at h
  · exact List.mem_cons_of_mem _ h
  · exact List.mem_cons_of_mem _ h
  · exact h

theorem specialNumber_eq_none {text : List Char} (h : ∀ c ∈ text, isDecimalSign c = true) :
    specialNumber text = none := by
  have hword : ∀ word : List Char, 'n' ∈ word → ((Decimal.sign text).2 == word) = false := by
    rintro word hword
    refine beq_eq_false_iff_ne.mpr fun heq => ?_
    have := h 'n' (mem_of_mem_sign (heq ▸ hword))
    cases this
  simp only [specialNumber, hword "inf".toList (by decide), hword "nan".toList (by decide)]
  rfl

/-- Digits, points and minus signs are no word and no number of another base. -/
theorem unquoted_eq {text : List Char} (h : ∀ c ∈ text, isDecimalSign c = true) :
    unquoted text = decimalNumber text := by
  have hnot : ∀ c ∈ text, c ≠ 'x' ∧ c ≠ 'o' ∧ c ≠ 'b' ∧ c ≠ 'e' := by
    intro c hc
    refine ⟨?_, ?_, ?_, ?_⟩ <;> rintro rfl <;> cases h _ hc
  have hword : ∀ word : List Char, 'e' ∈ word → (text == word) = false := fun word hword =>
    beq_eq_false_iff_ne.mpr fun heq => (hnot 'e' (heq ▸ hword)).2.2.2 rfl
  unfold unquoted
  split
  · exact absurd rfl (hnot 'x' (by simp)).1
  · exact absurd rfl (hnot 'o' (by simp)).2.1
  · exact absurd rfl (hnot 'b' (by simp)).2.2.1
  · rw [hword "true".toList (by decide), hword "false".toList (by decide), specialNumber_eq_none h]
    rfl

theorem underscoresFit_eq_true {isDigit : Char → Bool} {text : List Char} (h : '_' ∉ text) :
    underscoresFit isDigit text = true := by
  induction text using underscoresFit.induct with
  | case1 a b rest ih => exact absurd (List.mem_cons_of_mem _ List.mem_cons_self) h
  | case2 a rest hshort ih =>
    rw [List.mem_cons, not_or] at h
    rw [underscoresFit, ih h.2, Bool.and_true, bne_iff_ne]
    · exact Ne.symm h.1
    · exact hshort
  | case3 => rfl

/-- Digits, perhaps with points between and behind them. -/
structure IsUnsigned (chars : List Char) : Prop where
  sign : ∀ c ∈ chars, c.isDigit = true ∨ c = '.'
  first : ∀ c ∈ chars.head?, c.isDigit = true
  ne_nil : chars ≠ []

def minus (negative : Bool) : List Char := if negative then ['-'] else []

section Decimals

variable {chars : List Char} (negative : Bool) (h : IsUnsigned chars)
include h

theorem IsUnsigned.isDecimalSign : ∀ c ∈ minus negative ++ chars, isDecimalSign c = true := by
  intro c hc
  rcases List.mem_append.mp hc with hminus | hunsigned
  · cases negative with
    | false => cases hminus
    | true => exact List.eq_of_mem_singleton hminus ▸ rfl
  · unfold Toml.isDecimalSign
    rcases h.sign c hunsigned with hdigit | rfl
    · rw [hdigit]
      rfl
    · rfl

theorem IsUnsigned.sign_eq : Decimal.sign (minus negative ++ chars) = (negative, chars) := by
  cases negative with
  | true => rfl
  | false =>
    obtain ⟨c, more, rfl⟩ := List.exists_cons_of_ne_nil h.ne_nil
    have hdigit := h.first c rfl
    show Decimal.sign (c :: more) = _
    unfold Decimal.sign
    split
    · next heq => cases heq; cases hdigit
    · next heq => cases heq; cases hdigit
    · rfl

/-- Behind the first digits there is a point or the end of the value. -/
theorem IsUnsigned.unsigned {rest : List Char} (hrest : Stops rest) :
    Unsigned (chars.takeWhile Char.isDigit) (chars.dropWhile Char.isDigit ++ rest) := by
  refine ⟨fun c hc => List.mem_takeWhile_imp hc, fun c hc => ?_⟩
  have hnot := List.head?_dropWhile_not Char.isDigit chars
  have hsigns : ∀ c ∈ chars.dropWhile Char.isDigit, c.isDigit = true ∨ c = '.' := fun c hc =>
    h.sign c ((List.dropWhile_sublist _).subset hc)
  generalize chars.dropWhile Char.isDigit = after at *
  cases after with
  | nil =>
    obtain ⟨d, more, rfl, hd⟩ := hrest
    obtain rfl : d = c := Option.some.inj hc
    simp only [List.mem_cons, List.not_mem_nil, or_false] at hd
    rcases hd with rfl | rfl | rfl <;> exact ⟨rfl, by decide, fun heq => absurd heq (by decide)⟩
  | cons d more =>
    obtain rfl : d = c := Option.some.inj hc
    obtain rfl : d = '.' := (hsigns d List.mem_cons_self).resolve_left (by rw [hnot]; exact Bool.false_ne_true)
    exact ⟨rfl, by decide, fun heq => absurd heq (by decide)⟩

theorem IsUnsigned.moment_eq_none {rest : List Char} (hrest : Stops rest) :
    moment (minus negative ++ chars ++ rest) = none := by
  cases negative with
  | true =>
    have hmoment := Toml.moment_eq_none (unsigned_minus (chars ++ rest))
    exact hmoment
  | false =>
    have hsplit : minus false ++ chars ++ rest =
        chars.takeWhile Char.isDigit ++ (chars.dropWhile Char.isDigit ++ rest) := by
      rw [← List.append_assoc, List.takeWhile_append_dropWhile]
      rfl
    rw [hsplit]
    exact Toml.moment_eq_none (h.unsigned hrest)

/-- A number is read from its sign and its digits. -/
theorem IsUnsigned.scalar_eq {rest : List Char} (hrest : Stops rest) :
    scalar (minus negative ++ chars ++ rest) = (decimalNumber (minus negative ++ chars)).map fun d => (d, rest) := by
  have hsigns := h.isDecimalSign negative
  have hne : minus negative ++ chars ≠ [] := fun hnil => h.ne_nil (List.append_eq_nil_iff.mp hnil).2
  have hstring : string (minus negative ++ chars ++ rest) = none := by
    obtain ⟨c, more, hcons⟩ := List.exists_cons_of_ne_nil hne
    have hc := hsigns c (hcons ▸ List.mem_cons_self)
    rw [hcons]
    refine string_eq_none ?_ ?_ _ <;> rintro rfl <;> cases hc
  have hrun : run1 (fun c => c.isAlphanum || c = '+' || c = '-' || c = '.' || c = '_')
      (minus negative ++ chars ++ rest) = some (minus negative ++ chars, rest) := by
    refine run1_whole hne (fun c hc => ?_) (hrest.head _ rfl)
    have hc := hsigns c hc
    unfold Toml.isDecimalSign at hc
    simp only [Bool.or_eq_true, decide_eq_true_eq] at hc
    rcases hc with (hdigit | rfl) | rfl
    · simp [Char.isAlphanum, hdigit]
    · rfl
    · rfl
  rw [scalar_eq_unquoted hstring (h.moment_eq_none negative hrest)]
  unfold mapSome
  simp only [hrun, unquoted_eq hsigns]

theorem IsUnsigned.underscores : underscoresFit Char.isDigit chars = true ∧ chars.filter (· != '_') = chars := by
  have hnone : ∀ c ∈ chars, c ≠ '_' := by
    rintro c hc rfl
    rcases h.sign _ hc with hdigit | hpoint
    · cases hdigit
    · cases hpoint
  refine ⟨underscoresFit_eq_true fun hc => hnone _ hc rfl, List.filter_eq_self.mpr fun c hc => ?_⟩
  exact bne_iff_ne.mpr (hnone c hc)

end Decimals

theorem isUnsigned_whole {whole : List Char} (h : Decimal.WholeDigits whole) : IsUnsigned whole :=
  ⟨fun c hc => .inl (h.isDigit c hc), fun c hc => h.isDigit c (List.mem_of_head? hc), h.ne_nil⟩

theorem isUnsigned_pointed {whole fraction : List Char} (hwhole : Decimal.WholeDigits whole)
    (hfraction : ∀ c ∈ fraction, c.isDigit = true) : IsUnsigned (whole ++ '.' :: fraction) where
  sign c hc := by
    rcases List.mem_append.mp hc with hc | hc
    · exact .inl (hwhole.isDigit c hc)
    · exact (List.mem_cons.mp hc).symm.imp_left (hfraction c)
  first c hc := by
    rw [List.head?_append_of_ne_nil _ hwhole.ne_nil] at hc
    exact hwhole.isDigit c (List.mem_of_head? hc)
  ne_nil h := hwhole.ne_nil (List.append_eq_nil_iff.mp h).1

theorem isPlain_numeral {whole : List Char} (h : Decimal.WholeDigits whole) (fraction : Option (List Char))
    (hfraction : fraction ≠ some []) : (⟨whole, fraction, none⟩ : Decimal.Numeral).isPlain = true := by
  have hleading : (⟨whole, fraction, none⟩ : Decimal.Numeral).hasLeadingZero = false := by
    unfold Decimal.Numeral.hasLeadingZero
    by_cases hzero : whole.head? = some '0'
    · simp [h.leading hzero]
    · simp [hzero]
  have hcomplete : (⟨whole, fraction, none⟩ : Decimal.Numeral).isComplete = true := by
    simp [Decimal.Numeral.isComplete, hfraction]
  simp [Decimal.Numeral.isPlain, hleading, hcomplete, h.ne_nil]

/-! ### Integers -/

theorem decimalNumber_whole (negative : Bool) (n : Nat) :
    decimalNumber (minus negative ++ Nat.toDigits 10 n) = integerOf (if negative then -(n : Int) else n) := by
  have hwhole := Decimal.wholeDigits_toDigits n
  have hunsigned := isUnsigned_whole hwhole
  obtain ⟨hfit, hfilter⟩ := hunsigned.underscores
  have hplain := isPlain_numeral hwhole none (by simp)
  simp only [decimalNumber, hunsigned.sign_eq negative, hfilter, hfit, Decimal.scan_whole hwhole.isDigit, hplain,
    Decimal.digitsValue_toDigits]
  rfl

theorem readsAs_integer {n : Int} (h : -9223372036854775808 ≤ n ∧ n ≤ 9223372036854775807) :
    ReadsAs (toString n) (.integer n) := by
  obtain ⟨negative, k, htext, hn⟩ : ∃ (negative : Bool) (k : Nat),
      (toString n).toList = minus negative ++ Nat.toDigits 10 k ∧ n = if negative then -(k : Int) else k := by
    rw [Int.toString_eq_repr, Int.repr_eq_if]
    split
    · exact ⟨false, n.toNat, Nat.toList_repr, by simp; omega⟩
    · refine ⟨true, (-n).toNat, ?_, by simp; omega⟩
      rw [String.toList_append, Nat.toList_repr]
      rfl
  intro rest hrest
  have hunsigned := isUnsigned_whole (Decimal.wholeDigits_toDigits k)
  rw [htext, hunsigned.scalar_eq negative hrest, decimalNumber_whole, ← hn, integerOf, if_pos h]
  rfl

/-! ### Doubles -/

theorem decimalNumber_pointed (negative : Bool) {whole fraction : List Char} {d : Decimal.Digits}
    (h : Decimal.Pointed whole fraction d) {x y : Float}
    (hy : (⟨whole, some fraction, none⟩ : Decimal.Numeral).toFloat = y)
    (hx : x = if negative then -y else y) (hfinite : y.isInf = false) :
    decimalNumber (minus negative ++ (whole ++ '.' :: fraction)) = some (.number x) := by
  have hunsigned := isUnsigned_pointed h.isWhole h.isDigit
  obtain ⟨hfit, hfilter⟩ := hunsigned.underscores
  have hplain := isPlain_numeral h.isWhole (some fraction) (by simp [h.ne_nil])
  simp only [decimalNumber, hunsigned.sign_eq negative, hfilter, hfit, Decimal.scan_pointed h.isWhole.isDigit h.isDigit,
    hplain, hy, hfinite, hx]
  cases negative <;> rfl

theorem toList_signed (negative : Bool) (text : String) :
    (Decimal.signed negative text).toList = minus negative ++ text.toList := by
  cases negative with
  | false => rfl
  | true => exact String.toList_append

/-- The shortest digits of a double with a point. -/
theorem exists_numberText {x : Float} {negative : Bool} {m : Nat} {q : Int}
    (hx : Binary64.value x = .finite negative m q) :
    ∃ whole fraction, Decimal.Pointed whole fraction (Decimal.shortest .up m q) ∧
      (numberText x).toList = minus negative ++ (whole ++ '.' :: fraction) := by
  have hzero : (Decimal.shortest .up m q).coefficient = 0 → (Decimal.shortest .up m q).exponent = 0 := by
    intro hcoefficient
    by_cases hm : m = 0
    · subst hm
      rfl
    · have hcanonical := Binary64.canonical_of_value hx (Nat.pos_of_ne_zero hm)
      exact absurd hcoefficient (Decimal.coefficient_pos .up hcanonical).ne'
  obtain ⟨whole, fraction, hpointed, hpositional⟩ := Decimal.exists_pointed hzero
  refine ⟨whole, fraction, hpointed, ?_⟩
  have hplain : Decimal.plain x = Decimal.signed negative (Decimal.positional (Decimal.shortest .up m q)) := by
    unfold Decimal.plain
    rw [hx]
  have htext : numberText x =
      if (Decimal.plain x).toList.contains '.' then Decimal.plain x else Decimal.plain x ++ ".0" := by
    unfold numberText
    rw [hx]
  rw [htext, hplain, toList_signed]
  rcases hpositional with hpoint | ⟨hwhole, rfl⟩
  · rw [hpoint, if_pos (by simp), toList_signed, hpoint]
  · have hnone : '.' ∉ minus negative ++ whole := by
      intro hc
      rcases List.mem_append.mp hc with hc | hc
      · cases negative <;> simp [minus] at hc
      · cases hpointed.isWhole.isDigit _ hc
    rw [hwhole, if_neg (by simpa using hnone), String.toList_append, toList_signed, hwhole, List.append_assoc]
    rfl

/-- **Doubles are read back**: a finite double is read from its text as it was. -/
theorem readsAs_numberText {x : Float} (h : x.isFinite = true) : ReadsAs (numberText x) (.number x) := by
  obtain ⟨negative, m, q, hx⟩ := Binary64.value_of_isFinite h
  obtain ⟨whole, fraction, hpointed, htext⟩ := exists_numberText hx
  have hread := Decimal.value_toFloat hx hpointed
  obtain ⟨y, hy⟩ : ∃ y, (⟨whole, some fraction, none⟩ : Decimal.Numeral).toFloat = y := ⟨_, rfl⟩
  rw [hy] at hread
  have hxy : x = if negative then -y else y := by
    cases negative with
    | false => exact Binary64.eq_of_value_eq hx hread
    | true => exact Binary64.eq_of_value_eq hx (Binary64.value_neg hread)
  intro rest hrest
  rw [htext, (isUnsigned_pointed hpointed.isWhole hpointed.isDigit).scalar_eq negative hrest,
    decimalNumber_pointed negative hpointed hy hxy (Binary64.isInf_of_value hread)]
  rfl

end NumberedMelody.Toml
