/-
  NumberedMelody/Proofs/Grammar/Lexemes.lean
  ==========================================
  **Laws of the small parts.**  Expressions and the small parts of the notation
  are productive, and the small parts are steady, each because its parts are.
  The marks in front of an item do not look at the sign that opens a group: they
  read the same with it and without it (`marks_of_opening`).
-/
import NumberedMelody.Expr.Grammar
import NumberedMelody.Grammar.Lexeme
import NumberedMelody.Proofs.Grammar.Steady

namespace NumberedMelody

open Reader

/-! ### Expressions -/

namespace Expr

variable {inner unary : Reader Expr}

instance : Productive numberLiteral := by
  unfold numberLiteral
  infer_instance

instance [Lossless inner] : Productive (primary inner) := by
  unfold primary
  infer_instance

instance [Lossless inner] [Lossless unary] : Productive (power inner unary) := by
  unfold power
  infer_instance

instance : Productive asterisk where
  suffix h := by
    obtain ⟨c, mid, hchar, hrest⟩ := bind_eq_some.mp h
    split at hrest
    · cases hrest
    · simp only [Option.some.injEq, Prod.mk.injEq] at hrest
      exact hrest.2 ▸ Lossless.suffix hchar
  shorter h := by
    obtain ⟨c, mid, hchar, hrest⟩ := bind_eq_some.mp h
    split at hrest
    · cases hrest
    · simp only [Option.some.injEq, Prod.mk.injEq] at hrest
      exact hrest.2 ▸ Productive.shorter hchar

instance : Productive productSign := by
  unfold productSign
  infer_instance

instance : Productive sumSign := by
  unfold sumSign
  infer_instance

instance : Productive comparisonSign := by
  unfold comparisonSign
  infer_instance

instance (sign : Reader BinaryOperator) (operand : Reader Expr) [Productive sign] [Lossless operand] :
    Productive (signed sign operand) := by
  unfold signed
  infer_instance

instance (sign : Reader BinaryOperator) (operand : Reader Expr) [Productive sign] [Productive operand] :
    Productive (chain sign operand) := by
  unfold chain
  infer_instance

instance [Productive unary] : Productive (comparison unary) := by
  unfold comparison
  dsimp only
  infer_instance

instance [Lossless inner] [Productive unary] : Productive (choice inner unary) := by
  unfold choice
  infer_instance

theorem productive_to (depth : Nat) : Productive (unaryTo depth) ∧ Productive (readTo depth) := by
  induction depth with
  | zero =>
    rw [unaryTo, readTo]
    exact ⟨inferInstanceAs (Productive (firstOf [])), inferInstanceAs (Productive (firstOf []))⟩
  | succ depth ih =>
    obtain ⟨hunary, hread⟩ := ih
    rw [unaryTo, readTo]
    exact ⟨inferInstance, inferInstance⟩

instance : Productive Expr.read where
  suffix {text _ _} h := (productive_to (2 * text.length + 2)).2.suffix h
  shorter {text _ _} h := (productive_to (2 * text.length + 2)).2.shorter h

end Expr

/-! ### Small parts -/

namespace Grammar

instance : Productive integer := by
  unfold integer
  infer_instance

instance : Productive natural := by
  unfold natural
  infer_instance

instance : Productive decimal := by
  unfold decimal
  infer_instance

instance : Productive octaveMarks := by
  unfold octaveMarks
  infer_instance

instance : Productive escapedOctave := by
  unfold escapedOctave
  infer_instance

instance : Productive escapedDecimal := by
  unfold escapedDecimal
  infer_instance

instance : Productive durationMark := by
  unfold durationMark
  infer_instance

instance : Productive durationMarks := by
  unfold durationMarks
  infer_instance

instance : Productive durationAhead := by
  unfold durationAhead
  infer_instance

instance : Productive accidentals := by
  unfold accidentals
  infer_instance

instance : Productive mark := by
  unfold mark
  infer_instance

instance : Lossless marks := by
  unfold marks
  infer_instance

instance : Productive degree := by
  unfold degree
  infer_instance

instance : Productive inversion := by
  unfold inversion
  infer_instance

instance : Productive variableName := by
  unfold variableName
  infer_instance

instance : Lossless boundary := by
  unfold boundary
  infer_instance

instance : Productive tone := by
  unfold tone
  infer_instance

end Grammar

/-! ### Tests that pass no sign -/

namespace Reader

instance : Plain (· == '-') := ⟨by decide⟩

instance : Plain (· == '.') := ⟨by decide⟩

instance : Plain (· == '|') := ⟨by decide⟩

instance : Plain (· == '%') := ⟨by decide⟩

instance : Plain (· == '^') := ⟨by decide⟩

instance : Plain (· == '?') := ⟨by decide⟩

instance : Plain (· == 'T') := ⟨by decide⟩

instance : Plain (· == 'E') := ⟨by decide⟩

instance : Plain (· == 'r') := ⟨by decide⟩

instance : Plain "^_".toList.contains := ⟨by decide⟩

instance : Plain "#b".toList.contains := ⟨by decide⟩

instance : Plain "iv".toList.contains := ⟨by decide⟩

instance : Plain "=~".toList.contains := ⟨by decide⟩

instance : Plain "+-*/%@#".toList.contains := ⟨by decide⟩

instance : Plain Char.isDigit := ⟨by decide⟩

instance : Plain Char.isAlphanum := ⟨by decide⟩

instance : Plain Rhythm.isMark := ⟨by decide⟩

end Reader

/-! ### Steady small parts -/

namespace Grammar

section Steady

variable {stops : Stops} {place : Place} {depth : Nat}

instance : Steady stops place place digits :=
  inferInstanceAs (Steady stops place place (run1 _))

instance : Steady stops place place integer := by
  unfold integer
  infer_instance

instance : Steady stops place place natural := by
  unfold natural
  infer_instance

instance : Steady stops place place decimal := by
  unfold decimal
  infer_instance

instance : Steady stops place place octaveMarks := by
  unfold octaveMarks
  infer_instance

instance : Steady stops place place durationMarks := by
  unfold durationMarks durationMark
  infer_instance

instance : Steady stops place place accidentals := by
  unfold accidentals
  infer_instance

instance : Steady stops place place degree := by
  unfold degree
  infer_instance

instance : Steady stops place place inversion := by
  unfold inversion
  infer_instance

instance : Steady stops place place variableName :=
  have : Plain fun c => c.isUpper && c != 'T' && c != 'E' := ⟨by decide⟩
  inferInstanceAs (Steady stops place place (satisfy _))

instance : Steady stops (.inGroups depth) (.inGroups depth) escapedOctave := by
  unfold escapedOctave
  infer_instance

instance : Steady stops (.inGroups depth) (.inGroups depth) escapedDecimal := by
  unfold escapedDecimal
  infer_instance

instance : Steady stops (.inGroups depth) (.inGroups depth) durationAhead := by
  unfold durationAhead
  infer_instance

-- the angles around a duration open no group inside braces
instance : Steady stops (.inBraces depth) (.inBraces depth) durationAhead := by
  unfold durationAhead escapedDecimal
  infer_instance

instance : Steady stops (.inGroups depth) (.inGroups depth) marks := by
  unfold marks mark
  infer_instance

instance : Steady stops (.inGroups depth) (.inGroups depth) tone := by
  unfold tone
  infer_instance

theorem boundary_cons (c : Char) (text : List Char) :
    boundary (c :: text) =
      if Text.isSeparator c || ")]>|:".toList.contains c then some ((), c :: text) else none := by
  cases hseparator : Text.isSeparator c with
  | true => simp [boundary, peek, firstOf, map_apply, separators, run1, hseparator]
  | false =>
    cases hsign : ")]>|:".toList.contains c <;>
      simp only [boundary, peek, firstOf, fail, map_apply, separators, run1, hseparator, hsign, oneOf, satisfy, atEnd,
        List.takeWhile_cons, List.isEmpty_cons, Bool.false_eq_true, if_true, if_false, Bool.or_false, Bool.or_true,
        Option.map_none, Option.map_some]

instance : Steady .closing (.inGroups depth) (.inGroups depth) boundary where
  leads h := by
    unfold boundary peek at h
    split at h
    · cases h
    · exact ⟨[], (Prod.mk.inj (Option.some.inj h)).2, rfl⟩
  append {text more} h := by
    cases text with
    | nil =>
      -- a control item may end where the text does, so it has to end before each stop sign as well
      obtain ⟨sign, hsign, others, rfl, -⟩ := h.follows
      have hends : Stops.closing.signs.all
          (fun sign => Text.isSeparator sign || ")]>|:".toList.contains sign) = true := by decide
      rw [List.nil_append, boundary_cons, if_pos (List.all_eq_true.mp hends sign hsign)]
      rfl
    | cons c text =>
      rw [List.cons_append, boundary_cons, boundary_cons]
      cases hends : Text.isSeparator c || ")]>|:".toList.contains c <;> rfl

end Steady

/-- **The marks in front of a group are marks by themselves.**  What they are
    read from reads as the same marks, to its end, when it stands alone. -/
theorem marks_of_opening {opening : Char} (h : opening = '(' ∨ opening = '[') {text after : List Char}
    {overrides : Overrides} (hmarks : marks text = some (overrides, opening :: after)) :
    ∃ front, text = front ++ opening :: after ∧ marks front = some (overrides, []) := by
  obtain ⟨front, rfl, hfront⟩ := taken_from .opening (.inGroups 0) hmarks
  refine ⟨front, rfl, ?_⟩
  have hmeets : Meets .opening (.inGroups 0) front (opening :: after) :=
    ⟨hfront, opening, by simpa [Stops.signs] using h, after, rfl, by rcases h with rfl | rfl <;> nofun⟩
  rw [Steady.append (p := marks) hmeets] at hmarks
  cases halone : marks front with
  | none => simp [halone] at hmarks
  | some pair =>
    obtain ⟨alone, rest⟩ := pair
    simp only [halone, Option.map_some, followedBy, Option.some.injEq, Prod.mk.injEq] at hmarks
    obtain ⟨rfl, hrest⟩ := hmarks
    rw [List.append_left_eq_self.mp hrest]

end Grammar

end NumberedMelody
