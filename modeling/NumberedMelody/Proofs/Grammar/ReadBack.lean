/-
  NumberedMelody/Proofs/Grammar/ReadBack.lean
  ===========================================
  **A printed expression is read back.**  A text of the grammar is read as what
  it stands for, wherever nothing follows that could go on with it
  (`Derives.reads`), and a printed tree is such a text (`read_text`).

  Sums and products are read operand by operand, while the grammar nests them
  to the left.  What carries the induction along such a chain is that a text
  *begins* it: whatever steps are read behind the text are joined to its
  expression (`Begins`).
-/
import NumberedMelody.Proofs.Grammar.Expressions
import NumberedMelody.Proofs.Grammar.Precedence

namespace NumberedMelody.Expr

open Reader

/-! ### Expressions are read over expressions -/

/-- An operand of a product at the start of a text. -/
def unary : Reader Expr := fun text => unaryTo (2 * text.length + 1) text

/-- An operand of a sum. -/
def product : Reader Expr := chain productSign unary

/-- A side of a comparison. -/
def sum : Reader Expr := chain sumSign product

theorem readTo_sameBelow {n depth : Nat} (h : 2 * n ≤ depth) : SameBelow n (readTo depth) Expr.read := by
  intro text hlt
  exact (to_sameBelow (text.length + 1)).2 (by omega) (by omega) text (Nat.lt_succ_self _)

theorem unaryTo_sameBelow {n depth : Nat} (h : 2 * n ≤ depth + 1) : SameBelow n (unaryTo depth) unary := by
  intro text hlt
  exact (to_sameBelow (text.length + 1)).1 (by omega) (by omega) text (Nat.lt_succ_self _)

theorem read_eq_choice : Expr.read = choice Expr.read unary := by
  funext text
  obtain ⟨_, _⟩ := productive_to (2 * text.length + 1)
  have hinner : SameBelow text.length (readTo (2 * text.length + 1)) Expr.read := readTo_sameBelow (by omega)
  have hunary : SameBelow (text.length + 1) (unaryTo (2 * text.length + 1)) unary := unaryTo_sameBelow (by omega)
  exact choice_same hinner hunary text (Nat.lt_succ_self _)

theorem unary_eq :
    unary = firstOf [do let _ ← char '-'; let e ← unary; return .negate e, power Expr.read unary] := by
  funext text
  obtain ⟨_, _⟩ := productive_to (2 * text.length)
  have hinner : SameBelow text.length (readTo (2 * text.length)) Expr.read := readTo_sameBelow (by omega)
  have hunary : SameBelow text.length (unaryTo (2 * text.length)) unary := unaryTo_sameBelow (by omega)
  have hsame : SameBelow (text.length + 1) (unaryTo (2 * text.length + 1)) _ :=
    .firstOf (.bind_productive fun _ => .bind hunary fun _ => .refl _) <|
      .firstOf (power_same hinner hunary) <| .refl _
  exact hsame text (Nat.lt_succ_self _)

/-! ### What ends an expression -/

/-- A text does not start with anything of the level's own that could stand
    behind an expression. -/
def Level.Stops : Level → List Char → Prop
  | .primary, rest => ∀ c ∈ rest.head?, c.isDigit = false ∧ c ≠ '.'
  | .power, rest => exactly ['*', '*'] rest = none
  | .unary, _ => True
  | .product, rest => productSign rest = none
  | .sum, rest => sumSign rest = none
  | .comparison, rest => comparisonSign rest = none
  | .expression, rest => char '?' rest = none

/-- What is of the level ends where the rest of a text begins. -/
def Level.Ends (level : Level) (rest : List Char) : Prop := ∀ below : Level, below.rank ≤ level.rank → below.Stops rest

/-- A character with which something of the level's own starts. -/
def Level.goesOn : Level → Char → Bool
  | .primary, c => c.isDigit || c == '.'
  | .power, c => c == '*'
  | .unary, _ => false
  | .product, c => c == '*' || c == '/' || c == '%'
  | .sum, c => c == '+' || c == '-'
  | .comparison, c => c == '=' || c == '!' || c == '<' || c == '>'
  | .expression, c => c == '?'

theorem asterisk_cons (c : Char) (rest : List Char) :
    asterisk (c :: rest) = if c = '*' ∧ rest.head? ≠ some '*' then some ('*', rest) else none := by
  show Reader.bind (char '*') _ (c :: rest) = _
  unfold Reader.bind
  rw [char_cons]
  by_cases hc : c = '*'
  · subst hc
    by_cases hrest : rest.head? = some '*'
    · simp only [if_pos, hrest, ne_eq, not_true_eq_false, and_false, if_false]
    · simp only [if_pos, hrest, if_false, ne_eq, not_false_eq_true, and_self]
  · simp only [hc, false_and, if_false]

namespace Level

variable {level place : Level} {c : Char} {rest more : List Char}

theorem Ends.mono (h : level.Ends rest) (hle : place.rank ≤ level.rank) : place.Ends rest :=
  fun below hbelow => h below (Nat.le_trans hbelow hle)

theorem Ends.stops (h : level.Ends rest) : level.Stops rest := h level (Nat.le_refl _)

/-- A minus goes in front: nothing of it stands behind an expression. -/
theorem Ends.unary_of_power (h : Level.power.Ends rest) : Level.unary.Ends rest := by
  intro below hbelow
  cases below with
  | primary | power => exact h _ (by decide)
  | unary => trivial
  | product | sum | comparison | expression => exact absurd hbelow (by decide)

theorem stops_nil (level : Level) : level.Stops [] := by
  cases level with
  | primary => exact fun c hc => nomatch hc
  | unary => trivial
  | _ => rfl

theorem stops_cons (h : level.goesOn c = false) : level.Stops (c :: more) := by
  cases level with
  | unary => trivial
  | primary =>
    rintro _ ⟨⟩
    simpa [goesOn] using h
  | power | product | sum | comparison | expression =>
    simp only [goesOn, Bool.or_eq_false_iff, beq_eq_false_iff_ne] at h
    simp [Stops, productSign, sumSign, comparisonSign, firstOf, fail, map_apply, asterisk_cons, char_cons, exactly_cons,
      h]

theorem ends_cons (h : ∀ below : Level, below.rank ≤ level.rank → below.goesOn c = false) : level.Ends (c :: more) :=
  fun below hbelow => stops_cons (h below hbelow)

end Level

/-! ### Signs -/

section Signs

variable {right : List Char} (hright : Opens right)

include hright

/-- The sign of an operator ends the operand in front of it. -/
theorem ends_symbol (op : BinaryOperator) (rest : List Char) :
    op.level.tighter.Ends (op.symbol.toList ++ (right ++ rest)) := by
  obtain ⟨c, more, rfl, hstar, -⟩ := hright
  intro below hbelow
  -- a single asterisk starts like the sign of a power
  by_cases hpower : op = .multiply ∧ below = .power
  · obtain ⟨rfl, rfl⟩ := hpower
    show exactly ['*', '*'] ('*' :: c :: (more ++ rest)) = none
    rw [exactly_cons, if_pos rfl, exactly_cons, if_neg hstar]
  · have hgoesOn : op.symbol.toList.head?.any below.goesOn = false := by
      revert hbelow hpower
      cases op <;> cases below <;> decide
    cases op <;> exact Level.stops_cons hgoesOn

/-- The sign of an operator is read in front of an expression. -/
theorem productSign_symbol {op : BinaryOperator} (hop : op.level = .product) (rest : List Char) :
    productSign (op.symbol.toList ++ (right ++ rest)) = some (op, right ++ rest) := by
  obtain ⟨c, more, rfl, hstar, -⟩ := hright
  cases op with
  | multiply =>
    show productSign ('*' :: c :: (more ++ rest)) = _
    simp [productSign, firstOf, map_apply, asterisk_cons, hstar]
  | divide | modulo => rfl
  | _ => cases hop

theorem comparisonSign_symbol {op : BinaryOperator} (hop : op.level = .comparison) (rest : List Char) :
    comparisonSign (op.symbol.toList ++ (right ++ rest)) = some (op, right ++ rest) := by
  obtain ⟨c, more, rfl, -, hequal⟩ := hright
  cases op with
  | less =>
    show comparisonSign ('<' :: c :: (more ++ rest)) = _
    simp [comparisonSign, firstOf, map_apply, exactly_cons, char_cons, hequal]
  | greater =>
    show comparisonSign ('>' :: c :: (more ++ rest)) = _
    simp [comparisonSign, firstOf, map_apply, exactly_cons, char_cons, hequal]
  | equal | unequal | atMost | atLeast => rfl
  | _ => cases hop

omit hright

theorem sumSign_symbol {op : BinaryOperator} (hop : op.level = .sum) (right rest : List Char) :
    sumSign (op.symbol.toList ++ (right ++ rest)) = some (op, right ++ rest) := by
  cases op with
  | add | subtract => rfl
  | _ => cases hop

end Signs

/-! ### Chains of operands -/

section Chains

variable {sign : Reader BinaryOperator} {operand : Reader Expr} {level : Level} {text right rest : List Char}
  {e b : Expr}

/-- The text, up to where its level ends, is read as the expression. -/
def ReadsAs (p : Reader Expr) (level : Level) (text : List Char) (e : Expr) : Prop :=
  ∀ rest, level.Ends rest → p (text ++ rest) = some (e, rest)

/-- The text begins a chain with the expression: the steps that are read behind
    it are joined to the expression. -/
def Begins (sign : Reader BinaryOperator) (operand : Reader Expr) (level : Level) (text : List Char) (e : Expr) :
    Prop :=
  ∀ rest steps last, level.Ends rest → many (signed sign operand) rest = some (steps, last) →
    chain sign operand (text ++ rest) = some (joinLeft e steps, last)

theorem ReadsAs.begins (h : ReadsAs operand level text e) : Begins sign operand level text e := by
  intro rest steps last hrest hmany
  exact bind_eq_some.mpr ⟨e, rest, h rest hrest, bind_eq_some.mpr ⟨steps, last, hmany, rfl⟩⟩

theorem signed_eq_some {op : BinaryOperator} (hsign : sign text = some (op, right))
    (hoperand : operand right = some (b, rest)) : signed sign operand text = some ((op, b), rest) :=
  bind_eq_some.mpr ⟨op, right, hsign, bind_eq_some.mpr ⟨b, rest, hoperand, rfl⟩⟩

theorem signed_eq_none (h : sign rest = none) : signed sign operand rest = none := bind_of_none h _

/-- **One step of a chain**: an operator and an operand are joined to the left. -/
theorem Begins.step {symbol : List Char} {op : BinaryOperator} (hleft : Begins sign operand level text e)
    (hends : ∀ rest, level.Ends (symbol ++ (right ++ rest)))
    (hsign : ∀ rest, sign (symbol ++ (right ++ rest)) = some (op, right ++ rest))
    (hright : ReadsAs operand level right b) (hne : right ≠ []) :
    Begins sign operand level (text ++ (symbol ++ right)) (.binary op e b) := by
  intro rest steps last hrest hmany
  have hstep : signed sign operand (symbol ++ (right ++ rest)) = some ((op, b), rest) :=
    signed_eq_some (hsign rest) (hright rest hrest)
  have hshorter : rest.length < (symbol ++ (right ++ rest)).length := by
    have := List.length_pos_iff.mpr hne
    simp only [List.length_append]
    omega
  have hsteps : many (signed sign operand) (symbol ++ (right ++ rest)) = some ((op, b) :: steps, last) := by
    rw [many_eq, hstep]
    simp only [if_pos hshorter, hmany, Option.map_some]
  have hwhole := hleft (symbol ++ (right ++ rest)) ((op, b) :: steps) last (hends rest) hsteps
  rw [List.append_assoc, List.append_assoc]
  exact hwhole

/-- A chain ends where no sign follows. -/
theorem Begins.whole (h : Begins sign operand level text e) (hrest : level.Ends rest) (hsign : sign rest = none) :
    chain sign operand (text ++ rest) = some (e, rest) := by
  apply h rest [] rest hrest
  rw [many_eq, signed_eq_none hsign]

end Chains

/-! ### One lemma for each rule -/

/-- A text is read as an expression by what reads its level. -/
def Level.Reads : Level → List Char → Expr → Prop
  | .primary => ReadsAs (Expr.primary Expr.read) .primary
  | .power => ReadsAs (Expr.power Expr.read Expr.unary) .power
  | .unary => ReadsAs Expr.unary .unary
  | .product => Begins productSign Expr.unary .unary
  | .sum => Begins sumSign Expr.product .product
  | .comparison => ReadsAs (Expr.comparison Expr.unary) .comparison
  | .expression => ReadsAs Expr.read .expression

section Rules

variable {text left right condition yes no : List Char} {e a b c : Expr}

theorem readsAs_product (h : Level.product.Reads text e) : ReadsAs product .product text e :=
  fun _ hrest => h.whole (hrest.mono (by decide)) hrest.stops

theorem readsAs_sum (h : Level.sum.Reads text e) : ReadsAs sum .sum text e :=
  fun _ hrest => h.whole (hrest.mono (by decide)) hrest.stops

theorem reads_power_of_primary (h : Level.primary.Reads text e) : Level.power.Reads text e := by
  intro rest hrest
  have hexponent : optional (do exactly ['*', '*']; unary) rest = some (none, rest) :=
    optional_of_none (bind_of_none hrest.stops _)
  exact bind_eq_some.mpr ⟨e, rest, h rest (hrest.mono (by decide)), bind_eq_some.mpr ⟨none, rest, hexponent, rfl⟩⟩

theorem reads_unary_of_power (h : Level.power.Reads text e) : Level.unary.Reads text e := by
  intro rest hrest
  have hpower := h rest (hrest.mono (by decide))
  rw [unary_eq]
  refine firstOf_cons_eq_some.mpr (.inr ⟨?_, firstOf_cons_eq_some.mpr (.inl hpower)⟩)
  -- no power starts with a minus
  generalize text ++ rest = whole at hpower
  cases whole with
  | nil => rfl
  | cons d more =>
    by_cases hd : d = '-'
    · subst hd
      cases hpower
    · apply bind_of_none
      rw [char_cons, if_neg hd]

theorem reads_comparison_of_sum (h : Level.sum.Reads text e) : Level.comparison.Reads text e := by
  intro rest hrest
  have hstep : optional (signed comparisonSign sum) rest = some (none, rest) :=
    optional_of_none (signed_eq_none hrest.stops)
  exact bind_eq_some.mpr
    ⟨e, rest, readsAs_sum h rest (hrest.mono (by decide)), bind_eq_some.mpr ⟨none, rest, hstep, rfl⟩⟩

theorem reads_expression_of_comparison (h : Level.comparison.Reads text e) : Level.expression.Reads text e := by
  intro rest hrest
  rw [read_eq_choice]
  exact bind_eq_some.mpr
    ⟨e, rest, h rest (hrest.mono (by decide)),
      bind_eq_some.mpr ⟨none, rest, optional_of_none (bind_of_none hrest.stops _), rfl⟩⟩

/-- What a level reads, the next looser one reads. -/
theorem reads_of_tighter {level : Level} (h : level.tighter.Reads text e) : level.Reads text e := by
  cases level with
  | primary => exact h
  | power => exact reads_power_of_primary h
  | unary => exact reads_unary_of_power h
  | product => exact ReadsAs.begins h
  | sum => exact (readsAs_product h).begins
  | comparison => exact reads_comparison_of_sum h
  | expression => exact reads_expression_of_comparison h

/-- A literal is read as its value. -/
theorem numberLiteral_text (l : Literal) {rest : List Char} (hrest : Level.primary.Ends rest) :
    numberLiteral (l.text ++ rest) = some (l.value, rest) := by
  have hstops : ∀ c ∈ rest.head?, c.isDigit = false ∧ c ≠ '.' := hrest.stops
  obtain ⟨whole, places, hwhole, hplaces, hdigits, hplaceDigits⟩ := l
  have hwholeDigits := List.all_eq_true.mp hdigits
  cases places with
  | none =>
    have hpoint : char '.' rest = none := by
      cases rest with
      | nil => rfl
      | cons c more => rw [char_cons, if_neg (hstops c rfl).2]
    have hfraction : optional (do let _ ← char '.'; digits) rest = some (none, rest) :=
      optional_of_none (bind_of_none hpoint _)
    have htaken : digits (whole ++ rest) = some (whole, rest) :=
      run1_whole hwhole hwholeDigits fun c hc => (hstops c hc).1
    show numberLiteral (whole ++ [] ++ rest) = _
    rw [List.append_nil]
    exact bind_eq_some.mpr ⟨whole, rest, htaken, bind_eq_some.mpr ⟨none, rest, hfraction, rfl⟩⟩
  | some run =>
    have htaken : digits (whole ++ ('.' :: (run ++ rest))) = some (whole, '.' :: (run ++ rest)) := by
      apply run1_whole hwhole hwholeDigits
      rintro _ ⟨⟩
      rfl
    have hrun : digits (run ++ rest) = some (run, rest) :=
      run1_whole (fun hnil => hplaces (congrArg some hnil)) (List.all_eq_true.mp hplaceDigits) fun c hc => (hstops c hc).1
    have hfraction : optional (do let _ ← char '.'; digits) ('.' :: (run ++ rest)) = some (some run, rest) :=
      optional_eq_some.mpr (.inl ⟨run, bind_eq_some.mpr ⟨'.', run ++ rest, rfl, hrun⟩, rfl⟩)
    rw [Literal.value_eq]
    show numberLiteral (whole ++ ('.' :: run) ++ rest) = _
    rw [List.append_assoc]
    exact bind_eq_some.mpr
      ⟨whole, '.' :: (run ++ rest), htaken, bind_eq_some.mpr ⟨some run, rest, hfraction, rfl⟩⟩

theorem reads_number (l : Literal) : Level.primary.Reads l.text (.number l.value) := by
  intro rest hrest
  exact firstOf_cons_eq_some.mpr (.inl (map_eq_some.mpr ⟨l.value, numberLiteral_text l hrest, rfl⟩))

theorem reads_x : Level.primary.Reads ['x'] .x := fun _ _ => rfl

theorem reads_bracketed (h : Level.expression.Reads text e) : Level.primary.Reads ('(' :: (text ++ [')'])) e := by
  intro rest _
  have hclosing : Level.expression.Ends (')' :: rest) := Level.ends_cons fun below => by cases below <;> decide
  have hinside : between '(' ')' Expr.read ('(' :: (text ++ (')' :: rest))) = some (e, rest) :=
    between_eq_some.mpr ⟨text ++ (')' :: rest), rfl, h _ hclosing⟩
  show Expr.primary Expr.read ('(' :: (text ++ [')'] ++ rest)) = _
  rw [List.append_assoc]
  -- a bracket is neither a number nor the variable
  refine firstOf_cons_eq_some.mpr (.inr ⟨rfl, firstOf_cons_eq_some.mpr (.inr ⟨rfl, ?_⟩)⟩)
  exact firstOf_cons_eq_some.mpr (.inl hinside)

theorem reads_negate (h : Level.unary.Reads text e) : Level.unary.Reads ('-' :: text) (.negate e) := by
  intro rest hrest
  rw [unary_eq]
  exact firstOf_cons_eq_some.mpr
    (.inl (bind_eq_some.mpr ⟨'-', text ++ rest, rfl, bind_eq_some.mpr ⟨e, rest, h rest hrest, rfl⟩⟩))

theorem reads_power (hleft : Level.primary.Reads left a) (hright : Level.unary.Reads right b) :
    Level.power.Reads (left ++ ('*' :: '*' :: right)) (.binary .power a b) := by
  intro rest hrest
  have hsign : Level.primary.Ends ('*' :: '*' :: (right ++ rest)) :=
    Level.ends_cons fun below => by cases below <;> decide
  have hexponent : optional (do exactly ['*', '*']; unary) ('*' :: '*' :: (right ++ rest)) = some (some b, rest) :=
    optional_eq_some.mpr
      (.inl ⟨b, bind_eq_some.mpr ⟨(), right ++ rest, rfl, hright rest hrest.unary_of_power⟩, rfl⟩)
  rw [List.append_assoc]
  exact bind_eq_some.mpr ⟨a, _, hleft _ hsign, bind_eq_some.mpr ⟨some b, rest, hexponent, rfl⟩⟩

theorem reads_comparison {op : BinaryOperator} (hop : op.level = .comparison) (hopens : Opens right)
    (hleft : Level.sum.Reads left a) (hright : Level.sum.Reads right b) :
    Level.comparison.Reads (left ++ (op.symbol.toList ++ right)) (.binary op a b) := by
  intro rest hrest
  have hends : Level.sum.Ends (op.symbol.toList ++ (right ++ rest)) := by
    have hsign := ends_symbol hopens op rest
    rwa [hop] at hsign
  have hside : sum (right ++ rest) = some (b, rest) := readsAs_sum hright rest (hrest.mono (by decide))
  have hstep : optional (signed comparisonSign sum) (op.symbol.toList ++ (right ++ rest)) = some (some (op, b), rest) :=
    optional_eq_some.mpr (.inl ⟨(op, b), signed_eq_some (comparisonSign_symbol hopens hop rest) hside, rfl⟩)
  rw [List.append_assoc, List.append_assoc]
  exact bind_eq_some.mpr ⟨a, _, readsAs_sum hleft _ hends, bind_eq_some.mpr ⟨some (op, b), rest, hstep, rfl⟩⟩

theorem reads_binary (op : BinaryOperator) (hopens : Opens right) (hleft : op.leftLevel.Reads left a)
    (hright : op.rightLevel.Reads right b) :
    op.level.Reads (left ++ (op.symbol.toList ++ right)) (.binary op a b) := by
  have hends := ends_symbol hopens op
  cases op with
  | add | subtract =>
    exact Begins.step hleft hends (sumSign_symbol rfl right) (readsAs_product hright) hopens.ne_nil
  | multiply | divide | modulo =>
    exact Begins.step hleft hends (productSign_symbol hopens rfl) hright hopens.ne_nil
  | power => exact reads_power hleft hright
  | equal | unequal | less | atMost | greater | atLeast => exact reads_comparison rfl hopens hleft hright

theorem reads_conditional (hcondition : Level.comparison.Reads condition c) (hyes : Level.expression.Reads yes a)
    (hno : Level.expression.Reads no b) :
    Level.expression.Reads (condition ++ ('?' :: (yes ++ (':' :: no)))) (.conditional c a b) := by
  intro rest hrest
  have hquestion : Level.comparison.Ends ('?' :: (yes ++ (':' :: (no ++ rest)))) :=
    Level.ends_cons fun below => by cases below <;> decide
  have hcolon : Level.expression.Ends (':' :: (no ++ rest)) :=
    Level.ends_cons fun below => by cases below <;> decide
  rw [read_eq_choice, List.append_assoc]
  simp only [List.cons_append, List.append_assoc]
  refine bind_eq_some.mpr ⟨c, _, hcondition _ hquestion, bind_eq_some.mpr ⟨some (a, b), rest, ?_, rfl⟩⟩
  refine optional_eq_some.mpr (.inl ⟨(a, b), ?_, rfl⟩)
  exact bind_eq_some.mpr ⟨'?', _, rfl, bind_eq_some.mpr ⟨a, _, hyes _ hcolon,
    bind_eq_some.mpr ⟨':', _, rfl, bind_eq_some.mpr ⟨b, rest, hno rest hrest, rfl⟩⟩⟩⟩

end Rules

/-- **Texts of the grammar are read as what they stand for.**  The induction is on
    how the text is derived, one lemma for each rule. -/
theorem Derives.reads {level : Level} {text : List Char} {e : Expr} (h : Derives level text e) :
    level.Reads text e := by
  induction h with
  | number l => exact reads_number l
  | x => exact reads_x
  | bracketed _ ih => exact reads_bracketed ih
  | negate _ ih => exact reads_negate ih
  | binary op _ hright ihleft ihright => exact reads_binary op hright.opens ihleft ihright
  | conditional _ _ _ ihcondition ihyes ihno => exact reads_conditional ihcondition ihyes ihno
  | loosen _ ih => exact reads_of_tighter ih

/-! ### Printed trees -/

theorem toNat_of_isDigit {c : Char} (h : c.isDigit = true) : 0x30 ≤ c.toNat ∧ c.toNat ≤ 0x39 := by
  simp only [Char.isDigit, Bool.and_eq_true, decide_eq_true_eq] at h
  exact ⟨h.1, h.2⟩

theorem toNat_of_goesOn {level : Level} {c : Char} (h : level.goesOn c = true) : 0x21 ≤ c.toNat ∧ c.toNat ≤ 0x3F := by
  cases level with
  | unary => cases h
  | primary =>
    simp only [Level.goesOn, Bool.or_eq_true, beq_iff_eq] at h
    rcases h with hdigit | rfl
    · have := toNat_of_isDigit hdigit
      omega
    · decide
  | power | expression =>
    simp only [Level.goesOn, beq_iff_eq] at h
    rw [h]
    decide
  | product =>
    simp only [Level.goesOn, Bool.or_eq_true, beq_iff_eq] at h
    rcases h with (rfl | rfl) | rfl <;> decide
  | sum =>
    simp only [Level.goesOn, Bool.or_eq_true, beq_iff_eq] at h
    rcases h with rfl | rfl <;> decide
  | comparison =>
    simp only [Level.goesOn, Bool.or_eq_true, beq_iff_eq] at h
    rcases h with ((rfl | rfl) | rfl) | rfl <;> decide

/-- White space is no part of an expression. -/
theorem goesOn_of_isBlank {c : Char} (h : Text.isBlank c = true) (level : Level) : level.goesOn c = false := by
  rw [Bool.eq_false_iff]
  intro hgoesOn
  obtain ⟨hlow, hhigh⟩ := toNat_of_goesOn hgoesOn
  simp only [Text.isBlank, Text.blankRanges, List.any_cons, List.any_nil, Bool.or_false, Bool.or_eq_true,
    Bool.and_eq_true, decide_eq_true_eq] at h
  omega

theorem Level.ends_nil (level : Level) : level.Ends [] := fun below _ => below.stops_nil

/-- White space and closing brackets end an expression. -/
theorem Level.ends_of_closed {rest : List Char} (h : ∀ c ∈ rest.head?, Text.isBlank c = true ∨ c = ')' ∨ c = '}')
    (level : Level) : level.Ends rest := by
  cases rest with
  | nil => exact level.ends_nil
  | cons c more =>
    apply Level.ends_cons
    intro below _
    rcases h c rfl with hblank | rfl | rfl
    · exact goesOn_of_isBlank hblank below
    · cases below <;> decide
    · cases below <;> decide

/-- **A printed tree is read back**, up to white space or a closing bracket. -/
theorem read_text (e : Tree) (rest : List Char)
    (hrest : ∀ c ∈ rest.head?, Text.isBlank c = true ∨ c = ')' ∨ c = '}') :
    Expr.read (e.text ++ rest) = some (e.expr, rest) := by
  have hwhole : Derives .expression e.text e.expr := e.derives.loosen_of_le (by cases e.level <;> decide)
  exact hwhole.reads rest (Level.ends_of_closed hrest .expression)

/-- A condition at the level of a comparison, branches with brackets of their own. -/
theorem conditional_read :
    Expr.read ("x*2<=3.5?-x**2:(1-(2-x))%x**-2".toList ++ ['}']) =
      some
        (.conditional (.binary .atMost (.binary .multiply .x (.number (Decimal.nearest 2 0)))
            (.number (Decimal.nearest 35 (-1))))
          (.negate (.binary .power .x (.number (Decimal.nearest 2 0))))
          (.binary .modulo
            (.binary .subtract (.number (Decimal.nearest 1 0)) (.binary .subtract (.number (Decimal.nearest 2 0)) .x))
            (.binary .power .x (.negate (.number (Decimal.nearest 2 0))))), ['}']) := by
  let one : Literal := ⟨['1'], none, by decide, by decide, by decide, by decide⟩
  let two : Literal := ⟨['2'], none, by decide, by decide, by decide, by decide⟩
  let half : Literal := ⟨['3'], some ['5'], by decide, by decide, by decide, by decide⟩
  let tree : Tree :=
    .conditional (.binary .atMost (.binary .multiply .x (.number two)) (.number half))
      (.negate (.binary .power .x (.number two)))
      (.binary .modulo (.binary .subtract (.number one) (.binary .subtract (.number two) .x))
        (.binary .power .x (.negate (.number two))))
  have htext : tree.text = "x*2<=3.5?-x**2:(1-(2-x))%x**-2".toList := by decide
  have hread := read_text tree ['}'] (by rintro _ ⟨⟩; exact .inr (.inr rfl))
  rw [htext] at hread
  exact hread

end NumberedMelody.Expr
