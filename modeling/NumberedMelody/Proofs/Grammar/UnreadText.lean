/-
  NumberedMelody/Proofs/Grammar/UnreadText.lean
  =============================================
  **Where a pattern could not be read.**  A diagnosis counts every line in front
  of the unread text one byte longer than the line is, for the line feed behind
  it.  This leads to the unread text if all lines that were read end with a line
  feed alone.  A carriage return in front of one is a byte that is not counted,
  and behind it no place is right (`diagnosed_place_iff`).
-/
import Mathlib.Data.List.DropRight
import Mathlib.Data.List.Infix
import NumberedMelody.Proofs.Grammar.Juxtaposition

namespace NumberedMelody

open Reader
open Text (byteLength lines isSeparator)

/-! ### Lines of a text -/

namespace Text

/-- A text up to the end of its first line. -/
def untilLineEnd : List Char → List Char
  | [] => []
  | '\n' :: _ => []
  | '\r' :: '\n' :: _ => []
  | c :: rest => c :: untilLineEnd rest

/-- The part of a text behind its last line feed. -/
def lastLine (text : List Char) : List Char := text.rtakeWhile (· != '\n')

/-- A line ends with a carriage return and a line feed. -/
def HasReturn (text : List Char) : Prop := ['\r', '\n'] <:+: text

variable {line rest text : List Char}

theorem byteLength_append (text more : List Char) : byteLength (text ++ more) = byteLength text + byteLength more := by
  induction text with
  | nil => exact (Nat.zero_add _).symm
  | cons c text ih => simp only [List.cons_append, byteLength, ih, Nat.add_assoc]

theorem byteLength_pos {c : Char} (text : List Char) : 0 < byteLength (c :: text) :=
  Nat.lt_of_lt_of_le c.utf8Size_pos (Nat.le_add_right _ _)

/-! One lemma for each way in which a line can end. -/

/-- A character that starts no line end belongs to the line. -/
theorem lines_cons {c : Char} (hfeed : c ≠ '\n') (hreturn : c = '\r' → text.head? ≠ some '\n') :
    lines (c :: text) = (c :: (lines text).headD []) :: (lines text).tail := by
  rw [lines]
  · cases lines text <;> rfl
  · exact hfeed
  · rintro more rfl rfl
    exact hreturn rfl rfl

theorem lines_feed (hline : '\n' ∉ line) (hreturn : line.getLast? ≠ some '\r') (rest : List Char) :
    lines (line ++ '\n' :: rest) = line :: lines rest := by
  induction line with
  | nil => rfl
  | cons c line ih =>
    rw [List.mem_cons, not_or] at hline
    have hlast : line.getLast? ≠ some '\r' := by
      cases line with
      | nil => exact nofun
      | cons d line => rwa [List.getLast?_cons_cons] at hreturn
    have hnext : c = '\r' → (line ++ '\n' :: rest).head? ≠ some '\n' := by
      rintro rfl hhead
      cases line with
      | nil => exact hreturn rfl
      | cons d line => exact hline.2 (List.mem_cons.mpr (.inl (Option.some.inj hhead).symm))
    rw [List.cons_append, lines_cons (Ne.symm hline.1) hnext, ih hline.2 hlast]
    rfl

theorem lines_return (hline : '\n' ∉ line) (rest : List Char) :
    lines (line ++ '\r' :: '\n' :: rest) = line :: lines rest := by
  induction line with
  | nil => rfl
  | cons c line ih =>
    rw [List.mem_cons, not_or] at hline
    have hnext : c = '\r' → (line ++ '\r' :: '\n' :: rest).head? ≠ some '\n' := by
      rintro - hhead
      cases line with
      | nil => exact absurd (Option.some.inj hhead) (by decide)
      | cons d line => exact hline.2 (List.mem_cons.mpr (.inl (Option.some.inj hhead).symm))
    rw [List.cons_append, lines_cons (Ne.symm hline.1) hnext, ih hline.2]
    rfl

theorem exists_lines_eq (h : text ≠ []) : ∃ more, lines text = untilLineEnd text :: more := by
  fun_induction untilLineEnd text with
  | case1 => exact absurd rfl h
  | case2 rest => exact ⟨_, rfl⟩
  | case3 rest => exact ⟨_, rfl⟩
  | case4 c rest hfeed hreturn ih =>
    have hnext : c = '\r' → rest.head? ≠ some '\n' := by
      rintro rfl hhead
      obtain ⟨more, rfl⟩ := List.head?_eq_some_iff.mp hhead
      exact hreturn more rfl rfl
    refine ⟨(lines rest).tail, ?_⟩
    rw [lines_cons hfeed hnext]
    cases rest with
    | nil => rfl
    | cons d rest =>
      obtain ⟨more, hmore⟩ := ih (List.cons_ne_nil d rest)
      rw [hmore]
      rfl

theorem untilLineEnd_append (hline : '\n' ∉ line) {c : Char} (hc : c ≠ '\n') (rest : List Char) :
    untilLineEnd (line ++ c :: rest) = line ++ untilLineEnd (c :: rest) := by
  induction line with
  | nil => rfl
  | cons d line ih =>
    rw [List.mem_cons, not_or] at hline
    rw [List.cons_append, untilLineEnd, ih hline.2, List.cons_append]
    · exact Ne.symm hline.1
    · rintro more - heq
      cases line with
      | nil => exact hc (List.cons.inj heq).1
      | cons e line => exact hline.2 (List.mem_cons.mpr (.inl (List.cons.inj heq).1.symm))

/-- A text is a last line, or a line with one of the two line ends and a text. -/
theorem line_induction {motive : List Char → Prop} (last : ∀ line, '\n' ∉ line → motive line)
    (feed : ∀ line rest, '\n' ∉ line → line.getLast? ≠ some '\r' → motive rest → motive (line ++ '\n' :: rest))
    (withReturn : ∀ line rest, '\n' ∉ line → motive rest → motive (line ++ '\r' :: '\n' :: rest))
    (text : List Char) : motive text := by
  induction hlength : text.length using Nat.strongRecOn generalizing text with
  | ind length ih =>
    by_cases hmem : '\n' ∈ text
    · obtain ⟨line, rest, rfl, hline⟩ := List.eq_append_cons_of_mem hmem
      have hrest : motive rest := by
        refine ih rest.length ?_ rest rfl
        rw [← hlength, List.length_append, List.length_cons]
        omega
      by_cases hreturn : line.getLast? = some '\r'
      · obtain ⟨front, rfl⟩ := List.getLast?_eq_some_iff.mp hreturn
        rw [List.append_assoc]
        exact withReturn front rest (fun h => hline (List.mem_append_left _ h)) hrest
      · exact feed line rest hline hreturn hrest
    · exact last text hmem

/-! ### What is counted -/

theorem lastLine_of_not_mem (h : '\n' ∉ line) : lastLine line = line := by
  rw [lastLine, List.rtakeWhile_eq_self_iff]
  intro c hc
  exact bne_iff_ne.mpr fun heq => h (heq ▸ hc)

theorem lastLine_feed (line rest : List Char) : lastLine (line ++ '\n' :: rest) = lastLine rest := by
  induction rest using List.reverseRecOn with
  | nil => simp [lastLine]
  | append_singleton rest c ih =>
    have hsnoc : line ++ '\n' :: (rest ++ [c]) = (line ++ '\n' :: rest) ++ [c] := by simp
    rw [hsnoc, lastLine, lastLine, List.rtakeWhile_concat, List.rtakeWhile_concat]
    exact ite_congr rfl (fun _ => congrArg (· ++ [c]) ih) fun _ => rfl

theorem feed_not_mem_lastLine (text : List Char) : '\n' ∉ lastLine text := by
  intro h
  have := List.mem_rtakeWhile_imp h
  simp at this

theorem not_hasReturn_of_not_mem (h : '\n' ∉ line) : ¬ HasReturn line := fun hreturn =>
  h (hreturn.subset (by simp))

theorem hasReturn_return (line rest : List Char) : HasReturn (line ++ '\r' :: '\n' :: rest) :=
  ⟨line, rest, by simp⟩

theorem hasReturn_feed_iff (hline : '\n' ∉ line) (hreturn : line.getLast? ≠ some '\r') (rest : List Char) :
    HasReturn (line ++ '\n' :: rest) ↔ HasReturn rest := by
  unfold HasReturn
  induction line with
  | nil =>
    rw [List.nil_append, List.infix_cons_iff, List.cons_prefix_cons]
    exact or_iff_right (by simp)
  | cons c line ih =>
    rw [List.mem_cons, not_or] at hline
    have hlast : line.getLast? ≠ some '\r' := by
      cases line with
      | nil => exact nofun
      | cons d line => rwa [List.getLast?_cons_cons] at hreturn
    rw [List.cons_append, List.infix_cons_iff, List.cons_prefix_cons, ih hline.2 hlast]
    refine or_iff_right ?_
    rintro ⟨rfl, hprefix⟩
    cases line with
    | nil => exact hreturn rfl
    | cons d line =>
      obtain ⟨rfl, -⟩ := List.cons_prefix_cons.mp hprefix
      exact hline.2 List.mem_cons_self

/-- The bytes that lines count, one each for their end. -/
def counted : List (List Char) → Nat
  | [] => 0
  | line :: more => byteLength line + 1 + counted more

/-- The lines in front of the last one count all bytes but the carriage returns
    in front of line feeds. -/
theorem exists_lines_append (read unread : List Char) :
    ∃ front returns, lines (read ++ unread) = front ++ lines (lastLine read ++ unread) ∧
      front.length = read.count '\n' ∧ byteLength read = counted front + returns + byteLength (lastLine read) ∧
      (returns = 0 ↔ ¬ HasReturn read) := by
  induction read using line_induction with
  | last line hline =>
    refine ⟨[], 0, ?_, (List.count_eq_zero.mpr hline).symm, ?_, ?_⟩
    · rw [lastLine_of_not_mem hline]
      rfl
    · rw [lastLine_of_not_mem hline]
      exact (Nat.zero_add _).symm
    · exact iff_of_true rfl (not_hasReturn_of_not_mem hline)
  | feed line rest hline hreturn ih =>
    obtain ⟨front, returns, hlines, hlength, hbytes, hreturns⟩ := ih
    refine ⟨line :: front, returns, ?_, ?_, ?_, ?_⟩
    · rw [List.append_assoc, List.cons_append, lines_feed hline hreturn, hlines, lastLine_feed]
      rfl
    · rw [List.length_cons, hlength, List.count_append, List.count_cons_self, List.count_eq_zero.mpr hline,
        Nat.zero_add]
    · rw [byteLength_append, byteLength, hbytes, lastLine_feed]
      show _ + ('\n'.utf8Size + _) = (byteLength line + 1 + counted front) + _ + _
      rw [show '\n'.utf8Size = 1 from rfl]
      omega
    · rw [hreturns, hasReturn_feed_iff hline hreturn]
  | withReturn line rest hline ih =>
    obtain ⟨front, returns, hlines, hlength, hbytes, -⟩ := ih
    have hsnoc : line ++ '\r' :: '\n' :: rest = (line ++ ['\r']) ++ '\n' :: rest := by simp
    refine ⟨line :: front, returns + 1, ?_, ?_, ?_, ?_⟩
    · rw [List.append_assoc, List.cons_append, List.cons_append, lines_return hline, hlines, hsnoc, lastLine_feed]
      rfl
    · rw [List.length_cons, hlength, List.count_append, List.count_cons_of_ne (by decide), List.count_cons_self,
        List.count_eq_zero.mpr hline, Nat.zero_add]
    · rw [hsnoc, lastLine_feed, ← hsnoc, byteLength_append, byteLength, byteLength, hbytes]
      show _ + ('\r'.utf8Size + ('\n'.utf8Size + _)) = (byteLength line + 1 + counted front) + _ + _
      rw [show '\n'.utf8Size = 1 from rfl, show '\r'.utf8Size = 1 from rfl]
      omega
    · exact iff_of_false (Nat.succ_ne_zero _) fun h => h (hasReturn_return line rest)

end Text

/-! ### The place of a diagnosis -/

namespace Diagnosis

open Text (untilLineEnd lastLine HasReturn counted)

variable {read unread : List Char}

/-- The diagnosis points at the first character that was not read. -/
structure PointsBehind (d : Diagnosis) (read unread : List Char) : Prop where
  line : d.line = read.count '\n' + 1
  column : d.column = byteLength (lastLine read) + 1
  sourceLine : d.sourceLine.toList = lastLine read ++ untilLineEnd unread

theorem locateFrom_append (front more : List (List Char)) (offset : Nat) :
    ∀ number, locateFrom (counted front + offset) number (front ++ more) =
      locateFrom offset (number + front.length) more := by
  induction front with
  | nil =>
    intro number
    rw [counted, Nat.zero_add]
    rfl
  | cons line front ih =>
    intro number
    have hcounted : counted (line :: front) + offset - (byteLength line + 1) = counted front + offset := by
      show byteLength line + 1 + counted front + offset - _ = _
      omega
    have hbehind : ¬ counted (line :: front) + offset < byteLength line + 1 := by
      show ¬ byteLength line + 1 + counted front + offset < _
      omega
    rw [List.cons_append, locateFrom, if_neg hbehind, hcounted, ih, List.length_cons]
    congr 1
    omega

/-- Lines that are not the first have greater numbers. -/
theorem le_of_locateFrom_eq_some {all : List (List Char)} {offset number : Nat} {place : Nat × Nat × List Char}
    (h : locateFrom offset number all = some place) : number ≤ place.1 := by
  induction all generalizing offset number with
  | nil => cases h
  | cons line more ih =>
    rw [locateFrom] at h
    split at h
    · obtain rfl := Option.some.inj h
      exact Nat.le_refl _
    · exact Nat.le_of_succ_le (ih h)

/-- The line in which the unread text starts; lines after it do not matter. -/
theorem exists_lines_unread (read : List Char) {c : Char} (hfeed : c ≠ '\n') (rest : List Char) :
    ∃ more, lines (lastLine read ++ c :: rest) = (lastLine read ++ untilLineEnd (c :: rest)) :: more := by
  have hne : lastLine read ++ c :: rest ≠ [] := by simp
  obtain ⟨more, hmore⟩ := Text.exists_lines_eq hne
  rw [Text.untilLineEnd_append (Text.feed_not_mem_lastLine read) hfeed] at hmore
  exact ⟨more, hmore⟩

/-- With more bytes than the lines count the place is behind the column, on a
    later line, or, past all lines, at the end of the last one. -/
theorem locateFrom_getD_ne {front more : List (List Char)} {line : List Char} {returns column : Nat}
    (hreturns : returns ≠ 0) (hshort : column < byteLength line) :
    (locateFrom (returns + column) (1 + front.length) (line :: more)).getD
        (max (front ++ line :: more).length 1, byteLength ((front ++ line :: more).getLast?.getD []) + 1,
          (front ++ line :: more).getLast?.getD []) ≠
      (front.length + 1, column + 1, line) := by
  intro h
  rw [locateFrom] at h
  by_cases hwithin : returns + column < byteLength line + 1
  · rw [if_pos hwithin, Option.getD_some] at h
    have hcolumn := (Prod.mk.inj (Prod.mk.inj h).2).1
    omega
  · rw [if_neg hwithin] at h
    cases hfound : locateFrom (returns + column - (byteLength line + 1)) (1 + front.length + 1) more with
    | some place =>
      rw [hfound, Option.getD_some] at h
      have hle := le_of_locateFrom_eq_some hfound
      rw [h] at hle
      simp only at hle
      omega
    | none =>
      rw [hfound, Option.getD_none] at h
      obtain ⟨hnumber, hrest⟩ := Prod.mk.inj h
      rw [List.length_append, List.length_cons] at hnumber
      obtain rfl : more = [] := List.eq_nil_of_length_eq_zero (by omega)
      rw [List.getLast?_append_of_ne_nil _ (List.cons_ne_nil _ _), List.getLast?_singleton, Option.getD_some] at hrest
      have hcolumn := (Prod.mk.inj hrest).1
      omega

/-- **A text is unread where the lines in front of it count its bytes.** -/
theorem locate_eq_iff (read : List Char) {c : Char} (hc : isSeparator c = false) (rest : List Char) :
    locate (byteLength read) (read ++ c :: rest) =
        (read.count '\n' + 1, byteLength (lastLine read) + 1, lastLine read ++ untilLineEnd (c :: rest)) ↔
      ¬ HasReturn read := by
  have hfeed : c ≠ '\n' := by
    rintro rfl
    cases hc
  have hreturn : c ≠ '\r' := by
    rintro rfl
    cases hc
  obtain ⟨front, returns, hlines, hlength, hbytes, hreturns⟩ := Text.exists_lines_append read (c :: rest)
  obtain ⟨more, hmore⟩ := exists_lines_unread read hfeed rest
  have hstart : untilLineEnd (c :: rest) = c :: untilLineEnd rest := by
    rw [untilLineEnd]
    · exact hfeed
    · exact fun _ h => absurd h hreturn
  -- the unread text starts before the end of its line
  have hshort : byteLength (lastLine read) < byteLength (lastLine read ++ untilLineEnd (c :: rest)) := by
    rw [Text.byteLength_append, hstart]
    have := Text.byteLength_pos (c := c) (untilLineEnd rest)
    omega
  have hplace : locateFrom (byteLength read) 1 (lines (read ++ c :: rest)) =
      locateFrom (returns + byteLength (lastLine read)) (1 + front.length)
        ((lastLine read ++ untilLineEnd (c :: rest)) :: more) := by
    rw [hlines, hbytes, Nat.add_assoc, locateFrom_append, hmore]
  simp only [locate]
  rw [hplace, hlines, hmore, ← hlength, ← hreturns]
  constructor
  · intro h
    by_contra hsome
    exact locateFrom_getD_ne hsome hshort h
  · rintro rfl
    rw [locateFrom, Nat.zero_add, if_pos (by omega), Option.getD_some, Nat.add_comm 1]

end Diagnosis

/-- A pattern that cannot be read fails where an item cannot be read. -/
theorem readPattern_eq_error {text : String} {failure : Failure} (h : readPattern text = .error failure) :
    ∃ nodes c rest, Grammar.items text.toList = some (nodes, c :: rest) ∧ isSeparator c = false ∧
      failure = .unreadable (Diagnosis.ofUnread text.toList (c :: rest)) := by
  obtain ⟨nodes, unread, hread⟩ := many_total Grammar.item text.toList
  unfold readPattern Grammar.items at h
  rw [hread] at h
  cases unread with
  | nil => cases h
  | cons c rest =>
    have hnone : Grammar.item (c :: rest) = none := rest_of_many hread
    refine ⟨nodes, c, rest, hread, ?_, (Except.error.inj h).symm⟩
    -- a separator would be read as a blank
    rw [Grammar.item_eq, Grammar.itemOver_apply] at hnone
    have hisSome := Grammar.blank_isSome c rest
    cases hblank : Grammar.blank (c :: rest) with
    | none => rwa [hblank, eq_comm] at hisSome
    | some result =>
      rw [hblank] at hnone
      cases hnone

/-- **Parse failures point at the first unread character** just if no line that
    was read ends with a carriage return and a line feed.  Every pattern that
    cannot be read is diagnosed, and some text of it is unread. -/
theorem diagnosed_place_iff {text : String} {failure : Failure} (h : readPattern text = .error failure) :
    ∃ nodes read unread d, Grammar.items text.toList = some (nodes, unread) ∧ text.toList = read ++ unread ∧
      unread ≠ [] ∧ failure = .unreadable d ∧ (d.PointsBehind read unread ↔ ¬ ['\r', '\n'] <:+: read) := by
  obtain ⟨nodes, c, rest, hread, hc, rfl⟩ := readPattern_eq_error h
  obtain ⟨read, hsplit⟩ : c :: rest <:+ text.toList := Lossless.suffix (p := many Grammar.item) hread
  refine ⟨nodes, read, c :: rest, _, hread, hsplit.symm, List.cons_ne_nil _ _, rfl, ?_⟩
  rw [← hsplit]
  have hoffset : byteLength (read ++ c :: rest) - byteLength (c :: rest) = byteLength read := by
    rw [Text.byteLength_append, Nat.add_sub_cancel]
  refine Iff.trans ?_ (Diagnosis.locate_eq_iff read hc rest)
  constructor
  · rintro ⟨hline, hcolumn, hsource⟩
    simp only [Diagnosis.ofUnread, hoffset, String.toList_ofList] at hline hcolumn hsource
    exact Prod.ext hline (Prod.ext hcolumn hsource)
  · intro heq
    constructor <;> simp only [Diagnosis.ofUnread, hoffset, heq, String.toList_ofList]

/-- Behind an empty line, with a text that is longer in bytes than in characters. -/
theorem third_line_diagnosed :
    ∃ d, readPattern "1 2\n\n3 ~é 4" = .error (.unreadable d) ∧
      d.PointsBehind "1 2\n\n3 ".toList "~é 4".toList := by
  have hcheck : (Grammar.items "1 2\n\n3 ~é 4".toList).any (·.2 = "~é 4".toList) = true := by decide +kernel
  have hfails : (readPattern "1 2\n\n3 ~é 4").toOption.isNone = true := by decide +kernel
  cases hread : readPattern "1 2\n\n3 ~é 4" with
  | ok nodes =>
    rw [hread] at hfails
    cases hfails
  | error failure =>
    obtain ⟨nodes, read, unread, d, hitems, hsplit, -, rfl, hplace⟩ := diagnosed_place_iff hread
    rw [hitems] at hcheck
    obtain rfl : unread = "~é 4".toList := of_decide_eq_true hcheck
    obtain rfl : "1 2\n\n3 ".toList = read := List.append_cancel_right hsplit
    exact ⟨d, rfl, hplace.mpr (by decide)⟩

/-- Behind a carriage return the column is one too great. -/
theorem column_behind_return :
    ∃ nodes d, Grammar.items "1\r\n~".toList = some (nodes, "~".toList) ∧
      readPattern "1\r\n~" = .error (.unreadable d) ∧ d.line = 2 ∧ d.column = 2 ∧
      ¬ d.PointsBehind "1\r\n".toList "~".toList := by
  refine ⟨_, _, rfl, rfl, rfl, rfl, ?_⟩
  rintro ⟨-, hcolumn, -⟩
  exact absurd hcolumn (by decide)

end NumberedMelody
