/-
  NumberedMelody/Proofs/Grammar/Expressions.lean
  ==============================================
  **Expressions in braces.**  Reading an expression is closed one level of
  nesting at a time, like the items, and every second level takes a character:
  deeper levels than the text is long add nothing (`read_eq`).  An expression
  opens no group outside its braces, so inside them all of its parts are steady.
-/
import NumberedMelody.Proofs.Grammar.Nesting

namespace NumberedMelody.Expr

open Reader

/-! ### Depth is no limit -/

section Rules

variable {n : Nat} {inner inner' unary unary' : Reader Expr} [Lossless inner] [Productive unary]

theorem primary_same (h : SameBelow n inner inner') : SameBelow (n + 1) (primary inner) (primary inner') :=
  .firstOf (.refl _) <| .firstOf (.refl _) <| .firstOf (h.between '(' ')') <| .refl _

theorem power_same (h : SameBelow n inner inner') (hunary : SameBelow n unary unary') :
    SameBelow (n + 1) (power inner unary) (power inner' unary') :=
  .bind (primary_same h) fun _ => .bind (.optional (.bind_productive fun _ => hunary)) fun _ => .refl _

theorem chain_same (sign : Reader BinaryOperator) [Productive sign] {operand operand' : Reader Expr}
    [Lossless operand] (h : SameBelow n operand operand') : SameBelow n (chain sign operand) (chain sign operand') :=
  .bind h fun _ => .bind (.many (.bind (.refl sign) fun _ => .bind h fun _ => .refl _)) fun _ => .refl _

theorem comparison_same (h : SameBelow n unary unary') : SameBelow n (comparison unary) (comparison unary') := by
  have hsum := chain_same sumSign (chain_same productSign h)
  exact .bind hsum fun _ => .bind (.optional (.bind (.refl _) fun _ => .bind hsum fun _ => .refl _)) fun _ => .refl _

theorem choice_same (h : SameBelow n inner inner') (hunary : SameBelow (n + 1) unary unary') :
    SameBelow (n + 1) (choice inner unary) (choice inner' unary') :=
  .bind (comparison_same hunary) fun _ =>
    .bind
      (.optional (.bind_productive fun _ => .bind h fun _ => .bind (.refl _) fun _ => .bind h fun _ => .refl _))
      fun _ => .refl _

end Rules

/-- Levels of nesting that no text below a length can reach do not matter. -/
theorem to_sameBelow (n : Nat) :
    (∀ {depth depth' : Nat}, 2 * n ≤ depth + 1 → 2 * n ≤ depth' + 1 → SameBelow n (unaryTo depth) (unaryTo depth')) ∧
      ∀ {depth depth' : Nat}, 2 * n ≤ depth → 2 * n ≤ depth' → SameBelow n (readTo depth) (readTo depth') := by
  induction n with
  | zero => exact ⟨fun _ _ _ hlt => absurd hlt (Nat.not_lt_zero _), fun _ _ _ hlt => absurd hlt (Nat.not_lt_zero _)⟩
  | succ n ih =>
    obtain ⟨hunary, hread⟩ := ih
    have hunary' : ∀ {depth depth' : Nat}, 2 * (n + 1) ≤ depth + 1 → 2 * (n + 1) ≤ depth' + 1 →
        SameBelow (n + 1) (unaryTo depth) (unaryTo depth') := by
      intro depth depth' hdepth hdepth'
      obtain ⟨d, rfl⟩ := Nat.exists_eq_add_of_le' (show 1 ≤ depth by omega)
      obtain ⟨d', rfl⟩ := Nat.exists_eq_add_of_le' (show 1 ≤ depth' by omega)
      obtain ⟨_, _⟩ := productive_to d
      have hinside : SameBelow n (unaryTo d) (unaryTo d') := hunary (by omega) (by omega)
      rw [unaryTo, unaryTo]
      exact .firstOf (.bind_productive fun _ => .bind hinside fun _ => .refl _) <|
        .firstOf (power_same (hread (by omega) (by omega)) hinside) <| .refl _
    refine ⟨hunary', ?_⟩
    intro depth depth' hdepth hdepth'
    obtain ⟨d, rfl⟩ := Nat.exists_eq_add_of_le' (show 1 ≤ depth by omega)
    obtain ⟨d', rfl⟩ := Nat.exists_eq_add_of_le' (show 1 ≤ depth' by omega)
    obtain ⟨_, _⟩ := productive_to d
    rw [readTo, readTo]
    exact choice_same (hread (by omega) (by omega)) (hunary' (by omega) (by omega))

theorem read_eq (text : List Char) (depth : Nat) (h : 2 * text.length + 2 ≤ depth) :
    Expr.read text = readTo depth text :=
  (to_sameBelow (text.length + 1)).2 (Nat.le_refl _) h text (Nat.lt_succ_self _)

/-! ### Steady expressions -/

instance : Plain (· == 'x') := ⟨by decide⟩

instance : Plain (· == '*') := ⟨by decide⟩

instance : Plain (· == '/') := ⟨by decide⟩

instance : Plain (· == '+') := ⟨by decide⟩

instance : Plain (· == '=') := ⟨by decide⟩

instance : Plain (· == '!') := ⟨by decide⟩

section Steady

variable {stops : Stops} {depth : Nat} {inner unary : Reader Expr}

instance : Steady stops (.inBraces depth) (.inBraces depth) asterisk := by
  have hnext : ∀ c : Char, Steady stops (.inBraces depth) (.inBraces depth)
      (fun text => if text.head? = some '*' then none else some (c, text) : Reader Char) := by
    intro c
    constructor
    · intro text d rest h
      split at h
      · cases h
      · exact ⟨[], (Prod.mk.inj (Option.some.inj h)).2, rfl⟩
    · intro text more h
      cases text with
      -- the braces are closed, so the text does not end after an asterisk
      | nil => cases h.at_end
      | cons d text =>
        simp only [List.cons_append, List.head?_cons]
        by_cases hd : d = '*'
        · simp [hd]
        · simp [hd, followedBy]
  exact Steady.bind

instance : Steady stops (.inBraces depth) (.inBraces depth) productSign := by
  unfold productSign
  infer_instance

instance : Steady stops (.inBraces depth) (.inBraces depth) sumSign := by
  unfold sumSign
  infer_instance

instance : Steady stops (.inBraces depth) (.inBraces depth) comparisonSign := by
  unfold comparisonSign
  infer_instance

instance [Steady stops (.inBraces depth) (.inBraces depth) inner] :
    Steady stops (.inBraces depth) (.inBraces depth) (primary inner) := by
  unfold primary numberLiteral
  infer_instance

instance [Steady stops (.inBraces depth) (.inBraces depth) inner]
    [Steady stops (.inBraces depth) (.inBraces depth) unary] :
    Steady stops (.inBraces depth) (.inBraces depth) (power inner unary) := by
  unfold power
  infer_instance

instance (sign : Reader BinaryOperator) (operand : Reader Expr)
    [Steady stops (.inBraces depth) (.inBraces depth) sign]
    [Steady stops (.inBraces depth) (.inBraces depth) operand] :
    Steady stops (.inBraces depth) (.inBraces depth) (signed sign operand) := by
  unfold signed
  infer_instance

instance (sign : Reader BinaryOperator) (operand : Reader Expr)
    [Steady stops (.inBraces depth) (.inBraces depth) sign]
    [Steady stops (.inBraces depth) (.inBraces depth) operand] :
    Steady stops (.inBraces depth) (.inBraces depth) (chain sign operand) := by
  unfold chain
  infer_instance

instance [Steady stops (.inBraces depth) (.inBraces depth) unary] :
    Steady stops (.inBraces depth) (.inBraces depth) (comparison unary) := by
  unfold comparison
  dsimp only
  infer_instance

instance [Steady stops (.inBraces depth) (.inBraces depth) inner]
    [Steady stops (.inBraces depth) (.inBraces depth) unary] :
    Steady stops (.inBraces depth) (.inBraces depth) (choice inner unary) := by
  unfold choice
  infer_instance

theorem steady_to (level : Nat) :
    Steady stops (.inBraces depth) (.inBraces depth) (unaryTo level) ∧
      Steady stops (.inBraces depth) (.inBraces depth) (readTo level) := by
  induction level with
  | zero =>
    rw [unaryTo, readTo]
    exact ⟨inferInstanceAs (Steady _ _ _ (firstOf [])), inferInstanceAs (Steady _ _ _ (firstOf []))⟩
  | succ level ih =>
    obtain ⟨hunary, hread⟩ := ih
    rw [unaryTo, readTo]
    exact ⟨inferInstance, inferInstance⟩

instance : Steady stops (.inBraces depth) (.inBraces depth) Expr.read :=
  steady_of_levels (fun length => 2 * length + 2) (fun level => (steady_to level).2) read_eq

end Steady

end NumberedMelody.Expr
