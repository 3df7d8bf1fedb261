/-
  NumberedMelody/Proofs/Grammar/Recognition.lean
  ==============================================
  **What is read belongs to the grammar.**  Each reader of expressions takes a
  text of its level (`takes_to`).  Along with reading back, this makes the
  reader of expressions accept the texts of the grammar and no others
  (`read_eq_some_nil_iff`), and the grammar unambiguous (`Derives.unique`).
-/
import NumberedMelody.Proofs.Grammar.ReadBack

namespace NumberedMelody.Expr

open Reader

/-- What the reader takes is of the level, and stands for what is read. -/
def Takes (p : Reader Expr) (level : Level) : Prop :=
  ∀ {text rest : List Char} {e : Expr}, p text = some (e, rest) → ∃ front, text = front ++ rest ∧ Derives level front e

theorem exists_literal {text rest : List Char} {value : Float} (h : numberLiteral text = some (value, rest)) :
    ∃ l : Literal, text = l.text ++ rest ∧ l.value = value := by
  obtain ⟨whole, mid, hwhole, h⟩ := bind_eq_some.mp h
  obtain ⟨fraction, mid', hfraction, hvalue⟩ := bind_eq_some.mp h
  obtain ⟨rfl, rfl⟩ := pure_eq_some.mp hvalue
  obtain ⟨rfl, hne⟩ := run1_eq_some hwhole
  have hdigits := List.all_eq_true.mpr (test_of_mem_run1 hwhole)
  rcases optional_eq_some.mp hfraction with ⟨places, hplaces, rfl⟩ | ⟨-, rfl, rfl⟩
  · obtain ⟨point, after, hpoint, hrun⟩ := bind_eq_some.mp hplaces
    obtain ⟨rfl, -⟩ := char_eq_some.mp hpoint
    obtain ⟨rfl, hrunNe⟩ := run1_eq_some hrun
    have hrunDigits := List.all_eq_true.mpr (test_of_mem_run1 hrun)
    refine ⟨⟨whole, some places, hne, fun h => hrunNe (Option.some.inj h), hdigits, hrunDigits⟩, ?_, Literal.value_eq _⟩
    show whole ++ ('.' :: (places ++ _)) = whole ++ ('.' :: places) ++ _
    rw [List.append_assoc, List.cons_append]
  · refine ⟨⟨whole, none, hne, nofun, hdigits, rfl⟩, ?_, Literal.value_eq _⟩
    show _ = whole ++ [] ++ _
    rw [List.append_nil]

section Takes

variable {inner unary operand : Reader Expr} {sign : Reader BinaryOperator} {level side : Level}

theorem takes_primary (hinner : Takes inner .expression) : Takes (primary inner) .primary := by
  intro text rest e h
  rcases firstOf_cons_eq_some.mp h with hnumber | ⟨-, h⟩
  · obtain ⟨value, hliteral, rfl⟩ := map_eq_some.mp hnumber
    obtain ⟨l, rfl, rfl⟩ := exists_literal hliteral
    exact ⟨l.text, rfl, .number l⟩
  rcases firstOf_cons_eq_some.mp h with hx | ⟨-, h⟩
  · obtain ⟨c, hchar, rfl⟩ := map_eq_some.mp hx
    obtain ⟨rfl, -⟩ := char_eq_some.mp hchar
    exact ⟨['x'], rfl, .x⟩
  rcases firstOf_cons_eq_some.mp h with hbetween | ⟨-, h⟩
  · obtain ⟨inside, rfl, hinside⟩ := between_eq_some.mp hbetween
    obtain ⟨front, rfl, hfront⟩ := hinner hinside
    refine ⟨'(' :: (front ++ [')']), ?_, hfront.bracketed⟩
    rw [List.cons_append, List.append_assoc]
    rfl
  · cases h

theorem takes_power (hinner : Takes inner .expression) (hunary : Takes unary .unary) :
    Takes (power inner unary) .power := by
  intro text rest e h
  obtain ⟨base, mid, hbase, hbehind⟩ := bind_eq_some.mp h
  obtain ⟨exponent, mid', hexponent, hresult⟩ := bind_eq_some.mp hbehind
  obtain ⟨rfl, rfl⟩ := pure_eq_some.mp hresult
  obtain ⟨front, rfl, hfront⟩ := takes_primary hinner hbase
  rcases optional_eq_some.mp hexponent with ⟨b, hstep, rfl⟩ | ⟨-, rfl, rfl⟩
  · obtain ⟨⟨⟩, behind, hsign, hb⟩ := bind_eq_some.mp hstep
    obtain rfl := exactly_eq_some.mp hsign
    obtain ⟨right, rfl, hright⟩ := hunary hb
    refine ⟨front ++ (['*', '*'] ++ right), ?_, .binary .power hfront hright⟩
    rw [List.append_assoc, List.append_assoc]
  · exact ⟨front, rfl, .loosen hfront⟩

/-- The signs that the reader takes are those of operators of the level, with a
    left side and a tighter right side. -/
def Joins (sign : Reader BinaryOperator) (level side : Level) : Prop :=
  ∀ (text rest : List Char) (op : BinaryOperator), sign text = some (op, rest) →
    text = op.symbol.toList ++ rest ∧ op.level = level ∧ op.leftLevel = side ∧ op.rightLevel = level.tighter

theorem Joins.cons {α : Type} {p : Reader α} {op : BinaryOperator} {others : List (Reader BinaryOperator)}
    (hp : ∀ {text rest a}, p text = some (a, rest) → text = op.symbol.toList ++ rest)
    (hop : op.level = level ∧ op.leftLevel = side ∧ op.rightLevel = level.tighter)
    (hothers : Joins (firstOf others) level side) : Joins (firstOf (((fun _ => op) <$> p) :: others)) level side := by
  intro text rest op' h
  rcases firstOf_cons_eq_some.mp h with hfirst | ⟨-, hmore⟩
  · obtain ⟨a, hread, rfl⟩ := map_eq_some.mp hfirst
    exact ⟨hp hread, hop⟩
  · exact hothers text rest op' hmore

theorem Joins.nil : Joins (firstOf []) level side := by
  intro text rest op h
  cases h

theorem text_of_asterisk {c : Char} {text rest : List Char} (h : asterisk text = some (c, rest)) :
    text = '*' :: rest := by
  obtain ⟨c', mid, hchar, halone⟩ := bind_eq_some.mp h
  obtain ⟨rfl, -⟩ := char_eq_some.mp hchar
  split at halone
  · cases halone
  · obtain ⟨-, rfl⟩ := Prod.mk.inj (Option.some.inj halone)
    rfl

theorem text_of_char {c d : Char} {text rest : List Char} (h : char c text = some (d, rest)) : text = c :: rest :=
  (char_eq_some.mp h).1

theorem joins_product : Joins productSign .product .product :=
  .cons text_of_asterisk ⟨rfl, rfl, rfl⟩ <| .cons text_of_char ⟨rfl, rfl, rfl⟩ <|
    .cons text_of_char ⟨rfl, rfl, rfl⟩ .nil

theorem joins_sum : Joins sumSign .sum .sum :=
  .cons text_of_char ⟨rfl, rfl, rfl⟩ <| .cons text_of_char ⟨rfl, rfl, rfl⟩ .nil

theorem joins_comparison : Joins comparisonSign .comparison .sum :=
  .cons exactly_eq_some.mp ⟨rfl, rfl, rfl⟩ <| .cons exactly_eq_some.mp ⟨rfl, rfl, rfl⟩ <|
    .cons exactly_eq_some.mp ⟨rfl, rfl, rfl⟩ <| .cons exactly_eq_some.mp ⟨rfl, rfl, rfl⟩ <|
    .cons text_of_char ⟨rfl, rfl, rfl⟩ <| .cons text_of_char ⟨rfl, rfl, rfl⟩ .nil

theorem takes_signed (hsign : Joins sign level side) (hoperand : Takes operand level.tighter)
    {text rest front : List Char} {op : BinaryOperator} {a b : Expr}
    (h : signed sign operand text = some ((op, b), rest)) (hfront : Derives side front a) :
    ∃ taken, text = taken ++ rest ∧ Derives level (front ++ taken) (.binary op a b) := by
  obtain ⟨op', mid, hop, hbehind⟩ := bind_eq_some.mp h
  obtain ⟨b', mid', hb, hresult⟩ := bind_eq_some.mp hbehind
  obtain ⟨hpair, rfl⟩ := pure_eq_some.mp hresult
  obtain ⟨rfl, rfl⟩ := Prod.mk.inj hpair
  obtain ⟨rfl, rfl, rfl, hlevel⟩ := hsign _ _ _ hop
  obtain ⟨right, rfl, hright⟩ := hoperand hb
  exact ⟨op'.symbol.toList ++ right, (List.append_assoc _ _ _).symm, .binary op' hfront (hlevel ▸ hright)⟩

theorem takes_chain (hsign : Joins sign level level) (hoperand : Takes operand level.tighter) :
    Takes (chain sign operand) level := by
  intro text rest e h
  obtain ⟨first, mid, hfirst, hbehind⟩ := bind_eq_some.mp h
  obtain ⟨steps, mid', hsteps, hresult⟩ := bind_eq_some.mp hbehind
  obtain ⟨rfl, rfl⟩ := pure_eq_some.mp hresult
  obtain ⟨front, rfl, hfront⟩ := hoperand hfirst
  have hrun : ∀ left a, Derives level left a →
      ∃ taken, mid = taken ++ mid' ∧ Derives level (left ++ taken) (joinLeft a steps) := by
    refine many_induction (motive := fun text steps rest => ∀ left a, Derives level left a →
      ∃ taken, text = taken ++ rest ∧ Derives level (left ++ taken) (joinLeft a steps)) ?_ ?_ hsteps
    · intro text _ left a hleft
      exact ⟨[], rfl, by rwa [List.append_nil]⟩
    · intro text step mid more rest hstep _ ih left a hleft
      obtain ⟨taken, rfl, hjoined⟩ := takes_signed hsign hoperand hstep hleft
      obtain ⟨behind, rfl, hwhole⟩ := ih _ _ hjoined
      refine ⟨taken ++ behind, (List.append_assoc _ _ _).symm, ?_⟩
      rw [← List.append_assoc]
      exact hwhole
  obtain ⟨taken, rfl, hwhole⟩ := hrun front first (.loosen hfront)
  exact ⟨front ++ taken, (List.append_assoc _ _ _).symm, hwhole⟩

theorem takes_comparison (hunary : Takes unary .unary) : Takes (comparison unary) .comparison := by
  intro text rest e h
  have hsum : Takes (chain sumSign (chain productSign unary)) .sum :=
    takes_chain joins_sum (takes_chain joins_product hunary)
  obtain ⟨first, mid, hfirst, hbehind⟩ := bind_eq_some.mp h
  obtain ⟨step, mid', hstep, hresult⟩ := bind_eq_some.mp hbehind
  obtain ⟨rfl, rfl⟩ := pure_eq_some.mp hresult
  obtain ⟨front, rfl, hfront⟩ := hsum hfirst
  rcases optional_eq_some.mp hstep with ⟨⟨op, b⟩, hsigned, rfl⟩ | ⟨-, rfl, rfl⟩
  · obtain ⟨taken, rfl, hjoined⟩ := takes_signed joins_comparison hsum hsigned hfront
    exact ⟨front ++ taken, (List.append_assoc _ _ _).symm, hjoined⟩
  · exact ⟨front, rfl, .loosen hfront⟩

theorem takes_choice (hinner : Takes inner .expression) (hunary : Takes unary .unary) :
    Takes (choice inner unary) .expression := by
  intro text rest e h
  obtain ⟨condition, mid, hcondition, hbehind⟩ := bind_eq_some.mp h
  obtain ⟨branches, mid', hbranches, hresult⟩ := bind_eq_some.mp hbehind
  obtain ⟨rfl, rfl⟩ := pure_eq_some.mp hresult
  obtain ⟨front, rfl, hfront⟩ := takes_comparison hunary hcondition
  rcases optional_eq_some.mp hbranches with ⟨⟨a, b⟩, hboth, rfl⟩ | ⟨-, rfl, rfl⟩
  · obtain ⟨question, afterQuestion, hquestion, hboth⟩ := bind_eq_some.mp hboth
    obtain ⟨yes, afterYes, hyes, hboth⟩ := bind_eq_some.mp hboth
    obtain ⟨colon, afterColon, hcolon, hboth⟩ := bind_eq_some.mp hboth
    obtain ⟨no, afterNo, hno, hboth⟩ := bind_eq_some.mp hboth
    obtain ⟨hpair, rfl⟩ := pure_eq_some.mp hboth
    obtain ⟨rfl, rfl⟩ := Prod.mk.inj hpair
    obtain ⟨rfl, -⟩ := char_eq_some.mp hquestion
    obtain ⟨rfl, -⟩ := char_eq_some.mp hcolon
    obtain ⟨yesText, hyesText, hyesDerives⟩ := hinner hyes
    obtain ⟨noText, rfl, hnoDerives⟩ := hinner hno
    subst hyesText
    refine ⟨front ++ ('?' :: (yesText ++ (':' :: noText))), ?_, .conditional hfront hyesDerives hnoDerives⟩
    simp only [List.append_assoc, List.cons_append]
  · exact ⟨front, rfl, .loosen hfront⟩

end Takes

theorem takes_to (depth : Nat) : Takes (unaryTo depth) .unary ∧ Takes (readTo depth) .expression := by
  induction depth with
  | zero =>
    rw [unaryTo, readTo]
    constructor
    · intro text rest e h
      cases h
    · intro text rest e h
      cases h
  | succ depth ih =>
    obtain ⟨hunary, hread⟩ := ih
    rw [unaryTo, readTo]
    refine ⟨?_, takes_choice hread hunary⟩
    intro text rest e h
    rcases firstOf_cons_eq_some.mp h with hnegate | ⟨-, h⟩
    · obtain ⟨minus, behind, hminus, hbehind⟩ := bind_eq_some.mp hnegate
      obtain ⟨a, mid, ha, hresult⟩ := bind_eq_some.mp hbehind
      obtain ⟨rfl, rfl⟩ := pure_eq_some.mp hresult
      obtain ⟨rfl, -⟩ := char_eq_some.mp hminus
      obtain ⟨front, rfl, hfront⟩ := hunary ha
      exact ⟨'-' :: front, rfl, hfront.negate⟩
    rcases firstOf_cons_eq_some.mp h with hpower | ⟨-, h⟩
    · obtain ⟨front, rfl, hfront⟩ := takes_power hread hunary hpower
      exact ⟨front, rfl, .loosen hfront⟩
    · cases h

/-- **What is read belongs to the grammar.** -/
theorem derives_of_read {text rest : List Char} {e : Expr} (h : Expr.read text = some (e, rest)) :
    ∃ front, text = front ++ rest ∧ Derives .expression front e :=
  (takes_to (2 * text.length + 2)).2 h

/-- **The reader accepts the grammar**: a whole text is read as an expression
    just if the grammar says that it stands for it. -/
theorem read_eq_some_nil_iff {text : List Char} {e : Expr} :
    Expr.read text = some (e, []) ↔ Derives .expression text e := by
  constructor
  · intro h
    obtain ⟨front, rfl, hfront⟩ := derives_of_read h
    rwa [List.append_nil]
  · intro h
    have hread := h.reads [] (Level.ends_nil .expression)
    rwa [List.append_nil] at hread

/-- **The grammar is unambiguous.** -/
theorem Derives.unique {text : List Char} {a b : Expr} (ha : Derives .expression text a)
    (hb : Derives .expression text b) : a = b := by
  have hread := (read_eq_some_nil_iff.mpr ha).symm.trans (read_eq_some_nil_iff.mpr hb)
  exact (Prod.mk.inj (Option.some.inj hread)).1

end NumberedMelody.Expr
