/-
  NumberedMelody/Proofs/Config/TomlStrings.lean
  =============================================
  **Strings that are read back.**  A text is written in one of four forms, and
  the reader, which tells the forms apart by their first three characters,
  reads each of them as the text that was written, whatever characters the
  text has.  Between tripled signs the text is a sequence of pieces with up to
  two quotation marks in front of each (`Spelled`), so that three in a row are
  met at the end only.
-/
import Mathlib
import NumberedMelody.Config.OptionsText
import NumberedMelody.Proofs.Grammar.Laws

namespace NumberedMelody.Toml

open Reader

/-! ### Escapes -/

/-- The upper-case hexadecimal digit. -/
def upperDigit (d : Nat) : Char := (Nat.digitChar d).toUpper

theorem hexValue_upperDigit : ∀ d < 16, Json.hexValue (upperDigit d) = some d := by decide +kernel

theorem hexPadded_control :
    ∀ n < 128, ((Text.hexPadded 4 n).map Char.toUpper).toList =
      ['0', '0', upperDigit (n / 16), upperDigit (n % 16)] := by
  decide +kernel

theorem hexDigits_control {n : Nat} (hn : n < 128) (rest : List Char) :
    Json.hexDigits 4 ('0' :: '0' :: upperDigit (n / 16) :: upperDigit (n % 16) :: rest) = some (n, rest) := by
  have hdigit : ∀ d < 16, ∀ rest,
      mapSome Json.hexValue (satisfy fun _ => true) (upperDigit d :: rest) = some (d, rest) :=
    fun d hd rest => mapSome_eq_some.mpr ⟨upperDigit d, rfl, hexValue_upperDigit d hd⟩
  have hvalue : n / 16 * Nat.pow 16 1 + (n % 16 * Nat.pow 16 0 + 0) = n := by simp; omega
  conv => rhs; rw [← hvalue]
  have hlow : Json.hexDigits 1 (upperDigit (n % 16) :: rest) = some (n % 16 * Nat.pow 16 0 + 0, rest) :=
    bind_eq_some.mpr ⟨_, _, hdigit _ (by omega) _, rfl⟩
  have hhigh : Json.hexDigits 2 (upperDigit (n / 16) :: upperDigit (n % 16) :: rest) =
      some (n / 16 * Nat.pow 16 1 + (n % 16 * Nat.pow 16 0 + 0), rest) :=
    bind_eq_some.mpr ⟨_, _, hdigit _ (by omega) _, bind_eq_some.mpr ⟨_, _, hlow, rfl⟩⟩
  have hzero : ∀ text, mapSome Json.hexValue (satisfy fun _ => true) ('0' :: text) = some (0, text) :=
    hdigit 0 (by omega)
  refine bind_eq_some.mpr ⟨0, _, hzero _, bind_eq_some.mpr ⟨_, rest, ?_, by rw [Nat.zero_mul, Nat.zero_add]; rfl⟩⟩
  refine bind_eq_some.mpr ⟨0, _, hzero _, bind_eq_some.mpr ⟨_, rest, hhigh, ?_⟩⟩
  rw [Nat.zero_mul, Nat.zero_add]
  rfl

/-- How a character is written: as a line end, as itself or as an escape. -/
inductive Escaped (c : Char) : List Char → Prop
  | newline (h : c = '\n') : Escaped c ['\n']
  | itself (hplain : isPlain c = true) (hquote : c ≠ '"') (hbackslash : c ≠ '\\') : Escaped c [c]
  | sign (first : Char) (more : List Char) (hfirst : first ∉ [' ', '\t', '\n', '\r'])
      (hread : ∀ rest, escape ('\\' :: first :: more ++ rest) = some (c, rest)) : Escaped c ('\\' :: first :: more)

theorem escape_code {text rest : List Char} {n : Nat} {c : Char} (hdigits : Json.hexDigits 4 text = some (n, rest))
    (hchar : Json.charOf? n = some c) : escape ('\\' :: 'u' :: text) = some (c, rest) :=
  bind_eq_some.mpr ⟨'\\', 'u' :: text, rfl, firstOf_cons_eq_some.mpr
    (.inl (mapSome_eq_some.mpr ⟨n, bind_eq_some.mpr ⟨'u', text, rfl, hdigits⟩, hchar⟩))⟩

theorem eq_ofNat {c : Char} {n : Nat} (h : c.toNat = n) : c = Char.ofNat n := by rw [← h, Char.ofNat_toNat]

theorem escaped_escaped (manyLines : Bool) (c : Char) : Escaped c (escaped manyLines c).toList := by
  unfold escaped
  split_ifs with hback htab hnewline hmany hform hreturn hquote hbackslash hcontrol
  · exact eq_ofNat hback ▸ .sign 'b' [] (by decide) fun _ => rfl
  · exact htab ▸ .sign 't' [] (by decide) fun _ => rfl
  · exact .newline hnewline
  · exact hnewline ▸ .sign 'n' [] (by decide) fun _ => rfl
  · exact eq_ofNat hform ▸ .sign 'f' [] (by decide) fun _ => rfl
  · exact hreturn ▸ .sign 'r' [] (by decide) fun _ => rfl
  · exact hquote ▸ .sign '"' [] (by decide) fun _ => rfl
  · exact hbackslash ▸ .sign '\\' [] (by decide) fun _ => rfl
  · have hn : c.toNat < 128 := by omega
    have hchar : Json.charOf? c.toNat = some c := by
      unfold Json.charOf?
      rw [if_pos (by omega), Char.ofNat_toNat]
    rw [String.toList_append, hexPadded_control _ hn]
    exact .sign 'u' _ (by decide) fun rest => escape_code (hexDigits_control hn rest) hchar
  · have hplain : isPlain c = true := by
      unfold isPlain
      simp only [Bool.or_eq_true, decide_eq_true_eq, Bool.and_eq_true, bne_iff_ne]
      omega
    have hself : c.toString.toList = [c] := by simp [Char.toString]
    exact hself ▸ .itself hplain hquote hbackslash

/-! ### Strings on one line -/

theorem toList_lineQuoted (chars : List Char) :
    (lineQuoted chars).toList = '"' :: (chars.flatMap fun c => (escaped false c).toList) ++ ['"'] := by
  unfold lineQuoted
  rw [String.toList_append, String.toList_append, String.toList_join, List.flatMap_map]
  rfl

theorem basicString_eq_none {c : Char} (hc : c ≠ '"') (rest : List Char) : basicString (c :: rest) = none :=
  bind_of_none (bind_of_none (by rw [char_cons, if_neg hc]) _) _

theorem literalString_eq_none {c : Char} (hc : c ≠ '\'') (rest : List Char) : literalString (c :: rest) = none :=
  bind_of_none (bind_of_none (by rw [char_cons, if_neg hc]) _) _

/-- The characters of a string in quotation marks. -/
def basicChar : Reader Char := firstOf [satisfy fun c => c != '"' && c != '\\' && isPlain c, escape]

instance (n : Nat) : Lossless (Json.hexDigits n) := by
  induction n with
  | zero => exact inferInstanceAs (Lossless (pure 0))
  | succ n ih =>
    unfold Json.hexDigits
    infer_instance

instance : Productive escape := by
  unfold escape
  infer_instance

instance : Productive basicChar := by
  unfold basicChar
  infer_instance

theorem basicChar_escaped (c : Char) (rest : List Char) :
    basicChar ((escaped false c).toList ++ rest) = some (c, rest) := by
  have h := escaped_escaped false c
  generalize hwritten : (escaped false c).toList = written at h
  cases h with
  | newline hc =>
    subst hc
    cases hwritten
  | itself hplain hquote hbackslash =>
    exact firstOf_cons_eq_some.mpr (.inl (satisfy_eq_some.mpr ⟨rfl, by simp [hplain, hquote, hbackslash]⟩))
  | sign first more _ hread => exact firstOf_cons_eq_some.mpr (.inr ⟨rfl, firstOf_cons_eq_some.mpr (.inl (hread rest))⟩)

theorem basicString_lineQuoted (chars rest : List Char) :
    basicString ((lineQuoted chars).toList ++ rest) = some (String.ofList chars, rest) := by
  have hchars : many basicChar ((chars.flatMap fun c => (escaped false c).toList) ++ '"' :: rest) =
      some (chars, '"' :: rest) := by
    induction chars with
    | nil => exact many_of_none rfl
    | cons c chars ih =>
      rw [List.flatMap_cons, List.append_assoc, many_cons (basicChar_escaped c _), ih]
      rfl
  have hinside := List.append_assoc (chars.flatMap fun c => (escaped false c).toList) ['"'] rest
  rw [toList_lineQuoted]
  exact map_eq_some.mpr ⟨chars, between_eq_some.mpr ⟨_, congrArg ('"' :: ·) hinside, hchars⟩, rfl⟩

theorem literalString_quoted {text rest : List Char} (h : ∀ c ∈ text, c ≠ '\'' ∧ isPlain c = true) :
    literalString ('\'' :: text ++ '\'' :: rest) = some (String.ofList text, rest) :=
  map_eq_some.mpr ⟨text, between_eq_some.mpr ⟨_, rfl, many_satisfy (fun c hc => by simp [h c hc]) rfl⟩, rfl⟩

/-! ### Strings of several lines -/

/-- One part of a string between tripled signs. -/
def multilinePart (quote : Char) (part : Reader (List Char)) : Reader (List Char) :=
  firstOf [innerLineEnd, part, innerQuotes quote]

/-- What is written stands for some characters, whatever follows it: at most two
    quotation marks come in a row, in front of a part that the reader takes or
    at the end. -/
inductive Spelled (quote : Char) (part : Reader (List Char)) : List Char → List Char → Prop
  | marks {n : Nat} (hn : n ≤ 2) : Spelled quote part (List.replicate n quote) (List.replicate n quote)
  | piece {n : Nat} (hn : n ≤ 2) {first c : Char} {more written chars : List Char} (hfirst : first ≠ quote)
      (hread : ∀ rest, multilinePart quote part (first :: more ++ rest) = some ([c], rest))
      (h : Spelled quote part written chars) :
      Spelled quote part (List.replicate n quote ++ (first :: more ++ written)) (List.replicate n quote ++ (c :: chars))

theorem lineEnd_eq_none {text : List Char} (h : ∀ c ∈ text.head?, c ≠ '\n' ∧ c ≠ '\r') : lineEnd text = none := by
  cases text with
  | nil => rfl
  | cons c rest =>
    obtain ⟨hnewline, hreturn⟩ := h c rfl
    have hfirst : exactly ['\n'] (c :: rest) = none := by rw [exactly_cons, if_neg hnewline]
    have hsecond : exactly ['\r', '\n'] (c :: rest) = none := by rw [exactly_cons, if_neg hreturn]
    simp only [lineEnd, firstOf, hfirst, hsecond]
    rfl

theorem notLine_of_isPlain {c : Char} (h : isPlain c = true) : c ≠ '\n' ∧ c ≠ '\r' := by
  constructor <;> rintro rfl <;> cases h

section Multiline

variable {quote : Char} {part : Reader (List Char)} {rest : List Char}

theorem run1_replicate {n : Nat} (hn : n ≠ 0) (hrest : ∀ c ∈ rest.head?, c ≠ quote) :
    run1 (· == quote) (List.replicate n quote ++ rest) = some (List.replicate n quote, rest) :=
  run1_whole (by simpa using hn) (fun c hc => beq_iff_eq.mpr (List.eq_of_mem_replicate hc))
    fun c hc => beq_eq_false_iff_ne.mpr (hrest c hc)

variable (hline : quote ≠ '\n' ∧ quote ≠ '\r') (hpart : ∀ rest, part (quote :: rest) = none)
include hline hpart

/-- One or two quotation marks are a part, more of them are not. -/
theorem multilinePart_replicate {n : Nat} (hn : n ≠ 0) (hrest : ∀ c ∈ rest.head?, c ≠ quote) :
    multilinePart quote part (List.replicate n quote ++ rest) =
      if n < 3 then some (List.replicate n quote, rest) else none := by
  obtain ⟨m, rfl⟩ := Nat.exists_eq_succ_of_ne_zero hn
  have hend : lineEnd (List.replicate (m + 1) quote ++ rest) = none :=
    lineEnd_eq_none fun c hc => by
      obtain rfl : quote = c := Option.some.inj hc
      exact hline
  have hinner : innerLineEnd (List.replicate (m + 1) quote ++ rest) = none := bind_of_none hend _
  have hquotes : innerQuotes quote (List.replicate (m + 1) quote ++ rest) =
      if m + 1 < 3 then some (List.replicate (m + 1) quote, rest) else none := by
    show Reader.bind (run1 (· == quote)) _ _ = _
    unfold Reader.bind
    rw [run1_replicate hn hrest]
    simp only [List.length_replicate]
  have hother : part (List.replicate (m + 1) quote ++ rest) = none := hpart _
  rw [multilinePart, firstOf_of_none hinner, firstOf_of_none hother, firstOf_singleton, hquotes]

theorem many_of_spelled {written chars : List Char} (h : Spelled quote part written chars)
    (hrest : ∀ c ∈ rest.head?, c ≠ quote) :
    ∃ parts n, n ≤ 2 ∧ parts.flatten ++ List.replicate n quote = chars ∧
      many (multilinePart quote part) (written ++ (List.replicate 3 quote ++ rest)) =
        some (parts, List.replicate (n + 3) quote ++ rest) := by
  induction h with
  | @marks n hn =>
    refine ⟨[], n, hn, rfl, ?_⟩
    rw [← List.append_assoc, List.replicate_append_replicate]
    refine many_of_none ?_
    rw [multilinePart_replicate hline hpart (Nat.succ_ne_zero _) hrest, if_neg (by omega)]
  | @piece n hn first c more written chars hfirst hread _ ih =>
    obtain ⟨parts, last, hlast, hchars, hmany⟩ := ih
    have hpiece : many (multilinePart quote part)
        (first :: more ++ (written ++ (List.replicate 3 quote ++ rest))) =
          some ([c] :: parts, List.replicate (last + 3) quote ++ rest) := by
      rw [many_of_some (hread _) (by simp), hmany]
      rfl
    have htext : List.replicate n quote ++ (first :: more ++ written) ++ (List.replicate 3 quote ++ rest) =
        List.replicate n quote ++ (first :: more ++ (written ++ (List.replicate 3 quote ++ rest))) := by
      simp only [List.append_assoc]
    rw [htext]
    by_cases hzero : n = 0
    · subst hzero
      exact ⟨[c] :: parts, last, hlast, congrArg (c :: ·) hchars, hpiece⟩
    · refine ⟨List.replicate n quote :: [c] :: parts, last, hlast, ?_, ?_⟩
      · rw [← hchars]
        simp
      · obtain ⟨after, hafter⟩ : ∃ after, after = first :: more ++ (written ++ (List.replicate 3 quote ++ rest)) :=
          ⟨_, rfl⟩
        have hnext : ∀ d ∈ after.head?, d ≠ quote := by
          rintro d hd
          rw [hafter] at hd
          exact Option.some.inj hd ▸ hfirst
        rw [← hafter] at hpiece ⊢
        have hmarks := multilinePart_replicate hline hpart hzero hnext
        rw [if_pos (by omega)] at hmarks
        rw [many_of_some hmarks (by simp; omega), hpiece]
        rfl

/-- A text between tripled signs is read back, after a line end that does not belong to it. -/
theorem multiline_of_spelled {lead written chars : List Char} (h : Spelled quote part written chars)
    (hlead : ∃ skipped, optional lineEnd (lead ++ (written ++ (List.replicate 3 quote ++ rest))) =
      some (skipped, written ++ (List.replicate 3 quote ++ rest)))
    (hrest : ∀ c ∈ rest.head?, c ≠ quote) :
    multiline quote part (List.replicate 3 quote ++ (lead ++ (written ++ (List.replicate 3 quote ++ rest)))) =
      some (String.ofList chars, rest) := by
  obtain ⟨skipped, hskipped⟩ := hlead
  obtain ⟨parts, n, hn, hchars, hmany⟩ := many_of_spelled hline hpart h hrest
  have hclosing : closingQuotes quote (List.replicate (n + 3) quote ++ rest) = some (List.replicate n quote, rest) := by
    refine mapSome_eq_some.mpr ⟨_, run1_replicate (Nat.succ_ne_zero _) hrest, ?_⟩
    rw [List.length_replicate, if_pos (by omega), List.drop_replicate]
    rfl
  refine bind_eq_some.mpr ⟨(), _, exactly_eq_some.mpr rfl, bind_eq_some.mpr ⟨skipped, _, hskipped,
    bind_eq_some.mpr ⟨parts, _, hmany, bind_eq_some.mpr ⟨_, rest, hclosing, ?_⟩⟩⟩⟩
  rw [hchars]
  rfl

end Multiline

/-! #### In quotation marks -/

/-- A part of a string in tripled quotation marks. -/
def basicPart : Reader (List Char) :=
  firstOf
    [(fun c => [c]) <$> satisfy fun c => c != '"' && c != '\\' && isPlain c,
      lineContinuation,
      (fun c => [c]) <$> escape]

theorem basicPart_quote (rest : List Char) : basicPart ('"' :: rest) = none := rfl

theorem oneOf_blanks_eq_none {text : List Char} (h : ∀ c ∈ text.head?, c ≠ ' ' ∧ c ≠ '\t') :
    oneOf " \t" text = none := by
  cases text with
  | nil => rfl
  | cons c rest =>
    obtain ⟨hspace, htab⟩ := h c rfl
    show (if [' ', '\t'].contains c = true then some (c, rest) else none) = none
    rw [if_neg (by simp [hspace, htab])]

theorem lineContinuation_eq_none {first : Char} (hfirst : first ∉ [' ', '\t', '\n', '\r']) (rest : List Char) :
    lineContinuation ('\\' :: first :: rest) = none := by
  simp only [List.mem_cons, List.not_mem_nil, or_false, not_or] at hfirst
  obtain ⟨hspace, htab, hnewline, hreturn⟩ := hfirst
  have hblank : oneOf " \t" (first :: rest) = none :=
    oneOf_blanks_eq_none fun c hc => Option.some.inj hc ▸ ⟨hspace, htab⟩
  have hend : lineEnd (first :: rest) = none := lineEnd_eq_none fun c hc => Option.some.inj hc ▸ ⟨hnewline, hreturn⟩
  have hsign : char '\\' ('\\' :: first :: rest) = some ('\\', first :: rest) := rfl
  exact (bind_of_some hsign _).trans ((bind_of_some (many_of_none hblank) _).trans (bind_of_none hend _))

theorem multilinePart_escaped {c : Char} {written : List Char} (h : Escaped c written) (rest : List Char) :
    multilinePart '"' basicPart (written ++ rest) = some ([c], rest) := by
  cases h with
  | newline hc =>
    subst hc
    exact firstOf_of_some rfl
  | itself hplain hquote hbackslash =>
    have hend : lineEnd (c :: rest) = none :=
      lineEnd_eq_none fun d hd => Option.some.inj hd ▸ notLine_of_isPlain hplain
    have hitself : basicPart (c :: rest) = some ([c], rest) :=
      firstOf_of_some (map_eq_some.mpr ⟨c, satisfy_eq_some.mpr ⟨rfl, by simp [hplain, hquote, hbackslash]⟩, rfl⟩)
    exact (firstOf_of_none (bind_of_none hend _)).trans (firstOf_of_some hitself)
  | sign first more hfirst hread =>
    have hescape : basicPart ('\\' :: first :: (more ++ rest)) = some ([c], rest) := by
      unfold basicPart
      rw [firstOf_of_none rfl, firstOf_of_none (lineContinuation_eq_none hfirst _)]
      exact firstOf_of_some (map_eq_some.mpr ⟨c, hread rest, rfl⟩)
    exact (firstOf_of_none rfl).trans (firstOf_of_some hescape)

/-- A text with its escapes, after so many quotation marks in a row. -/
theorem spelled_linesEscaped {marks : Nat} (hmarks : marks ≤ 2) (chars : List Char) :
    Spelled '"' basicPart (List.replicate marks '"' ++ (linesEscaped marks chars).toList)
      (List.replicate marks '"' ++ chars) := by
  induction chars generalizing marks with
  | nil =>
    have hnil : (linesEscaped marks []).toList = [] := rfl
    rw [hnil, List.append_nil]
    exact .marks hmarks
  | cons c chars ih =>
    unfold linesEscaped
    split_ifs with hquote hfew
    · subst hquote
      have hnext : marks + 1 ≤ 2 := hfew
      have hmore := ih hnext
      rw [List.replicate_succ', List.append_assoc, List.append_assoc] at hmore
      rw [String.toList_append]
      exact hmore
    · subst hquote
      rw [String.toList_append]
      exact .piece hmarks (by decide) (multilinePart_escaped (.sign '"' [] (by decide) fun _ => rfl))
        (ih (Nat.zero_le _))
    · have hescaped := escaped_escaped true c
      rw [String.toList_append]
      generalize (escaped true c).toList = written at hescaped
      have hread := multilinePart_escaped hescaped
      have hmore := ih (Nat.zero_le 2)
      cases hescaped with
      | newline _ => exact .piece hmarks (by decide) hread hmore
      | itself _ _ _ => exact .piece hmarks hquote hread hmore
      | sign _ _ _ _ => exact .piece hmarks (by decide) hread hmore

/-! #### In apostrophes -/

def literalPart : Reader (List Char) := (fun c => [c]) <$> satisfy fun c => c != '\'' && isPlain c

theorem literalPart_quote (rest : List Char) : literalPart ('\'' :: rest) = none := rfl

theorem multilinePart_itself {c : Char} (hc : c = '\n' ∨ isPlain c = true) (hquote : c ≠ '\'') (rest : List Char) :
    multilinePart '\'' literalPart (c :: rest) = some ([c], rest) := by
  rcases hc with rfl | hplain
  · exact firstOf_of_some rfl
  · have hend : lineEnd (c :: rest) = none :=
      lineEnd_eq_none fun d hd => Option.some.inj hd ▸ notLine_of_isPlain hplain
    exact (firstOf_of_none (bind_of_none hend _)).trans (firstOf_of_some
      (map_eq_some.mpr ⟨c, satisfy_eq_some.mpr ⟨rfl, by simp [hplain, hquote]⟩, rfl⟩))

/-- What `longestRun` keeps: the longest run so far, and the run that goes on. -/
def longerRun (quote : Char) (runs : Nat × Nat) (c : Char) : Nat × Nat :=
  if c = quote then (max runs.1 (runs.2 + 1), runs.2 + 1) else (runs.1, 0)

theorem longestRun_eq (quote : Char) (text : List Char) :
    longestRun quote text = (text.foldl (longerRun quote) (0, 0)).1 := rfl

theorem le_foldl_longerRun (quote : Char) (text : List Char) (runs : Nat × Nat) :
    runs.1 ≤ (text.foldl (longerRun quote) runs).1 := by
  induction text generalizing runs with
  | nil => exact Nat.le_refl _
  | cons c text ih =>
    refine Nat.le_trans ?_ (ih _)
    unfold longerRun
    split
    · exact Nat.le_max_left _ _
    · exact Nat.le_refl _

/-- A text as it is, after so many apostrophes in a row. -/
theorem spelled_itself {text : List Char} (htext : ∀ c ∈ text, c = '\n' ∨ isPlain c = true) {most marks : Nat}
    (hmarks : marks ≤ 2) (hrun : (text.foldl (longerRun '\'') (most, marks)).1 ≤ 2) :
    Spelled '\'' literalPart (List.replicate marks '\'' ++ text) (List.replicate marks '\'' ++ text) := by
  induction text generalizing most marks with
  | nil =>
    rw [List.append_nil]
    exact .marks hmarks
  | cons c text ih =>
    obtain ⟨hc, hmore⟩ := List.forall_mem_cons.mp htext
    rw [List.foldl_cons] at hrun
    by_cases hquote : c = '\''
    · subst hquote
      have hlonger : longerRun '\'' (most, marks) '\'' = (max most (marks + 1), marks + 1) := if_pos rfl
      rw [hlonger] at hrun
      have hfew : max most (marks + 1) ≤ 2 := (le_foldl_longerRun _ _ _).trans hrun
      have hspelled := ih hmore (by omega) hrun
      rwa [List.replicate_succ', List.append_assoc] at hspelled
    · have hother : longerRun '\'' (most, marks) c = (most, 0) := if_neg hquote
      rw [hother] at hrun
      have hread : ∀ rest, multilinePart '\'' literalPart ([c] ++ rest) = some ([c], rest) :=
        multilinePart_itself hc hquote
      exact .piece hmarks hquote hread (ih hmore (Nat.zero_le _) hrun)

/-! ### The four forms -/

/-- A string on one line does not start with tripled signs. -/
theorem exactly_tripled_eq_none {quote : Char} {inside rest : List Char} (hinside : ∀ c ∈ inside.head?, c ≠ quote)
    (hrest : ∀ c ∈ rest.head?, c ≠ quote) :
    exactly [quote, quote, quote] (quote :: (inside ++ quote :: rest)) = none := by
  rw [exactly_cons, if_pos rfl]
  cases inside with
  | nil =>
    rw [List.nil_append, exactly_cons, if_pos rfl]
    cases rest with
    | nil => rfl
    | cons c rest => rw [exactly_cons, if_neg (hrest c rfl)]
  | cons c inside => rw [List.cons_append, exactly_cons, if_neg (hinside c rfl)]

section Forms

variable {rest : List Char}

theorem string_lineQuoted (hrest : ∀ c ∈ rest.head?, c ≠ '"') (chars : List Char) :
    string ((lineQuoted chars).toList ++ rest) = some (String.ofList chars, rest) := by
  have htext : (lineQuoted chars).toList ++ rest =
      '"' :: ((chars.flatMap fun c => (escaped false c).toList) ++ '"' :: rest) := by
    rw [toList_lineQuoted, List.cons_append, List.cons_append, List.append_assoc]
    rfl
  have hinside : ∀ d ∈ (chars.flatMap fun c => (escaped false c).toList).head?, d ≠ '"' := by
    cases chars with
    | nil => exact fun _ hd => nomatch hd
    | cons c chars =>
      have hescaped := escaped_escaped false c
      rw [List.flatMap_cons]
      generalize (escaped false c).toList = written at hescaped
      intro d hd
      cases hescaped with
      | newline _ | sign _ _ _ _ => exact Option.some.inj hd ▸ by decide
      | itself _ hquote _ => exact Option.some.inj hd ▸ hquote
  have hquotes : multilineBasic ((lineQuoted chars).toList ++ rest) = none := by
    rw [htext]
    exact bind_of_none (exactly_tripled_eq_none hinside hrest) _
  have happostrophes : multilineLiteral ((lineQuoted chars).toList ++ rest) = none := by
    rw [htext]
    exact bind_of_none rfl _
  exact (firstOf_of_none hquotes).trans ((firstOf_of_none happostrophes).trans
    (firstOf_of_some (basicString_lineQuoted chars rest)))

theorem string_quoted (hrest : ∀ c ∈ rest.head?, c ≠ '\'') {text : List Char}
    (h : ∀ c ∈ text, c ≠ '\'' ∧ isPlain c = true) :
    string ('\'' :: (text ++ '\'' :: rest)) = some (String.ofList text, rest) := by
  have hquotes : multilineBasic ('\'' :: (text ++ '\'' :: rest)) = none := bind_of_none rfl _
  have happostrophes : multilineLiteral ('\'' :: (text ++ '\'' :: rest)) = none :=
    bind_of_none (exactly_tripled_eq_none (fun c hc => (h c (List.mem_of_head? hc)).1) hrest) _
  have hbasic : basicString ('\'' :: (text ++ '\'' :: rest)) = none := basicString_eq_none (by decide) _
  exact (firstOf_of_none hquotes).trans ((firstOf_of_none happostrophes).trans
    ((firstOf_of_none hbasic).trans (firstOf_of_some (literalString_quoted h))))

/-- The line end that is written after the opening signs of several lines. -/
def lead (chars : List Char) : List Char := if chars.contains '\n' then ['\n'] else []

theorem optional_lead {chars written : List Char} (h : ∀ c ∈ written.head?, c = '\n' ∨ c = '\r' → '\n' ∈ chars) :
    ∃ skipped, optional lineEnd (lead chars ++ written) = some (skipped, written) := by
  unfold lead
  split
  · exact ⟨some (), rfl⟩
  · next hnone =>
    rw [List.contains_iff_mem] at hnone
    exact ⟨none, optional_of_none (lineEnd_eq_none fun c hc => by have := h c hc; tauto)⟩

theorem toList_tripled (sign body : String) (chars : List Char) :
    (tripled sign chars body).toList = sign.toList ++ (lead chars ++ (body.toList ++ sign.toList)) := by
  unfold tripled lead
  split <;> simp

theorem string_tripled_quotes (hrest : ∀ c ∈ rest.head?, c ≠ '"') (chars : List Char) :
    string ((tripled "\"\"\"" chars (linesEscaped 0 chars)).toList ++ rest) = some (String.ofList chars, rest) := by
  have hfirst : ∀ c ∈ ((linesEscaped 0 chars).toList ++ (['"', '"', '"'] ++ rest)).head?,
      c = '\n' ∨ c = '\r' → '\n' ∈ chars := by
    cases chars with
    | nil => exact fun c hc hend => absurd (Option.some.inj hc ▸ hend) (by decide)
    | cons d chars =>
      by_cases hd : d = '"'
      · have hwritten : linesEscaped 0 (d :: chars) = "\"" ++ linesEscaped 1 chars := by
          rw [linesEscaped, if_pos hd, if_pos Nat.two_pos]
        rw [hwritten, String.toList_append]
        exact fun c hc hend => absurd (Option.some.inj hc ▸ hend) (by decide)
      · have hwritten : linesEscaped 0 (d :: chars) = escaped true d ++ linesEscaped 0 chars := by
          rw [linesEscaped, if_neg hd]
        have hescaped := escaped_escaped true d
        rw [hwritten, String.toList_append]
        generalize (escaped true d).toList = written at hescaped
        intro c hc hend
        cases hescaped with
        | newline h => exact h ▸ List.mem_cons_self
        | itself hplain _ _ => exact absurd (Option.some.inj hc ▸ hend) (not_or.mpr (notLine_of_isPlain hplain))
        | sign _ _ _ _ => exact absurd (Option.some.inj hc ▸ hend) (by decide)
  have hread := multiline_of_spelled (by decide) basicPart_quote (spelled_linesEscaped (Nat.zero_le 2) chars)
    (optional_lead hfirst) hrest
  rw [toList_tripled, List.append_assoc, List.append_assoc, List.append_assoc]
  exact firstOf_of_some hread

theorem string_tripled_apostrophes (hrest : ∀ c ∈ rest.head?, c ≠ '\'') {text : String}
    (htext : ∀ c ∈ text.toList, c = '\n' ∨ isPlain c = true) (hrun : longestRun '\'' text.toList ≤ 2) :
    string ((tripled "'''" text.toList text).toList ++ rest) = some (text, rest) := by
  have hfirst : ∀ c ∈ (text.toList ++ (['\'', '\'', '\''] ++ rest)).head?,
      c = '\n' ∨ c = '\r' → '\n' ∈ text.toList := by
    intro c hc hend
    generalize text.toList = chars at htext hc ⊢
    cases chars with
    | nil => exact absurd (Option.some.inj hc ▸ hend) (by decide)
    | cons d chars =>
      obtain rfl : d = c := Option.some.inj hc
      rcases htext d List.mem_cons_self with rfl | hplain
      · exact List.mem_cons_self
      · exact absurd hend (not_or.mpr (notLine_of_isPlain hplain))
  rw [longestRun_eq] at hrun
  have hread := multiline_of_spelled (by decide) literalPart_quote (spelled_itself htext (Nat.zero_le 2) hrun)
    (optional_lead hfirst) hrest
  rw [toList_tripled, List.append_assoc, List.append_assoc, List.append_assoc]
  rw [List.replicate_zero, List.nil_append, String.ofList_toList] at hread
  exact (firstOf_of_none (bind_of_none rfl _)).trans (firstOf_of_some hread)

end Forms

/-- A text is read back in whichever form it is written. -/
theorem string_stringText (text : String) {rest : List Char} (hrest : ∀ c ∈ rest.head?, c ≠ '"' ∧ c ≠ '\'') :
    string ((stringText text).toList ++ rest) = some (text, rest) := by
  have hquote := fun c hc => (hrest c hc).1
  have happostrophe := fun c hc => (hrest c hc).2
  have hline := string_lineQuoted hquote text.toList
  have hlines := string_tripled_quotes hquote text.toList
  rw [String.ofList_toList] at hline hlines
  have hspecial : text.toList.any needsEscape = false → ∀ c ∈ text.toList, c = '\n' ∨ isPlain c = true := by
    intro hnone c hc
    have := List.any_eq_false.mp hnone c hc
    simp only [needsEscape, Bool.and_eq_true, bne_iff_ne, Bool.not_eq_true', not_and, Bool.not_eq_false] at this
    exact or_iff_not_imp_left.mpr this
  simp only [stringText]
  split_ifs with hplain hliteral hshort happostrophes hmany
  · exact hline
  · simp only [Bool.and_eq_true, Bool.not_eq_true', List.contains_eq_mem, decide_eq_false_iff_not] at hliteral
    obtain ⟨⟨hnone, hfree⟩, honeLine⟩ := hliteral
    have htext : ∀ c ∈ text.toList, c ≠ '\'' ∧ isPlain c = true := fun c hc =>
      ⟨ne_of_mem_of_not_mem hc hfree, (hspecial hnone c hc).resolve_left (ne_of_mem_of_not_mem hc honeLine)⟩
    have hread := string_quoted happostrophe htext
    rw [String.ofList_toList] at hread
    rw [String.toList_append, String.toList_append, List.append_assoc, List.append_assoc]
    exact hread
  · exact hlines
  · simp only [Bool.and_eq_true, Bool.not_eq_true', decide_eq_true_eq] at happostrophes
    exact string_tripled_apostrophes happostrophe (hspecial happostrophes.1) happostrophes.2
  · exact hlines
  · exact hline

end NumberedMelody.Toml
