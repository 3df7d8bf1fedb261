/-
  NumberedMelody/Proofs/Grammar/Nesting.lean
  ==========================================
  **Items are items over items.**  The grammar is closed one level of nesting
  at a time, as deep as the text is long.  A rule reads the items inside it
  only after a sign of its own, from a shorter text, so deeper levels add
  nothing (`itemTo_sameBelow`): the reader of items is the rules over itself
  (`item_eq`).
-/
import NumberedMelody.Proofs.Grammar.Spelling

namespace NumberedMelody

/-! ### Readers that agree on short texts -/

namespace Reader

variable {α β : Type} {n : Nat} {p q : Reader α}

/-- The readers are the same on texts below a length. -/
def SameBelow (n : Nat) (p q : Reader α) : Prop := ∀ text, text.length < n → p text = q text

namespace SameBelow

theorem refl (p : Reader α) : SameBelow n p p := fun _ _ => rfl

theorem succ (h : SameBelow (n + 1) p q) : SameBelow n p q := fun text hlt => h text (by omega)

theorem bind {f g : α → Reader β} [Lossless p] (h : SameBelow n p q) (hnext : ∀ a, SameBelow n (f a) (g a)) :
    SameBelow n (p >>= f) (q >>= g) := by
  intro text hlt
  show Reader.bind p f text = Reader.bind q g text
  unfold Reader.bind
  rw [← h text hlt]
  cases hp : p text with
  | none => rfl
  | some pair =>
    have := Lossless.length_le hp
    exact hnext pair.1 pair.2 (by omega)

/-- After something has been taken, it is enough to agree on shorter texts. -/
theorem bind_productive {f g : α → Reader β} [Productive p] (hnext : ∀ a, SameBelow n (f a) (g a)) :
    SameBelow (n + 1) (p >>= f) (p >>= g) := by
  intro text hlt
  show Reader.bind p f text = Reader.bind p g text
  unfold Reader.bind
  cases hp : p text with
  | none => rfl
  | some pair =>
    have := Productive.shorter hp
    exact hnext pair.1 pair.2 (by omega)

theorem map [Lossless p] (h : SameBelow n p q) (f : α → β) : SameBelow n (f <$> p) (f <$> q) :=
  SameBelow.bind h fun a => SameBelow.refl (pure (f a))

theorem mapSome (h : SameBelow n p q) (f : α → Option β) : SameBelow n (mapSome f p) (mapSome f q) := by
  intro text hlt
  unfold Reader.mapSome
  rw [h text hlt]

theorem firstOf {alternatives others : List (Reader α)} (h : SameBelow n p q)
    (hmore : SameBelow n (firstOf alternatives) (firstOf others)) :
    SameBelow n (firstOf (p :: alternatives)) (firstOf (q :: others)) := by
  intro text hlt
  simp only [Reader.firstOf, h text hlt, hmore text hlt]

theorem optional (h : SameBelow n p q) : SameBelow n (optional p) (optional q) := by
  intro text hlt
  unfold Reader.optional
  rw [h text hlt]

theorem many (h : SameBelow n p q) : SameBelow n (many p) (many q) := by
  intro text
  induction hlength : text.length using Nat.strongRecOn generalizing text with
  | ind length ih =>
    intro hlt
    rw [many_eq, many_eq q text, h text (by omega)]
    cases hq : q text with
    | none => rfl
    | some pair =>
      by_cases hshorter : pair.2.length < text.length
      · simp only [if_pos hshorter]
        rw [ih pair.2.length (by omega) pair.2 rfl (by omega)]
      · simp only [if_neg hshorter]

theorem consumed (h : SameBelow n p q) : SameBelow n (consumed p) (consumed q) := by
  intro text hlt
  unfold Reader.consumed
  rw [h text hlt]

theorem between [Lossless p] (h : SameBelow n p q) (opening closing : Char) :
    SameBelow (n + 1) (between opening closing p) (between opening closing q) :=
  bind_productive fun _ => bind h fun _ => refl _

end SameBelow

end Reader

namespace Grammar

open Reader

/-! ### Rules over items that agree -/

section Rules

variable {n : Nat} {p q : Reader Node} [Faithful p]

theorem list_same (h : SameBelow n p q) : SameBelow (n + 1) (list p) (list q) :=
  .bind (.consumed (.bind (.refl marks) fun _ => .bind (h.many.between '(' ')') fun _ => .refl _)) fun _ => .refl _

theorem subdivision_same (h : SameBelow n p q) : SameBelow (n + 1) (subdivision p) (subdivision q) :=
  .bind (.consumed (.bind (.refl marks) fun _ => .bind (h.many.between '[' ']') fun _ => .refl _)) fun _ => .refl _

theorem cycle_same (h : SameBelow n p q) : SameBelow (n + 1) (cycle p) (cycle q) :=
  .bind (.consumed (h.many.between '<' '>')) fun _ => .refl _

theorem operand_same (h : SameBelow n p q) : SameBelow (n + 1) (operand p) (operand q) :=
  .firstOf (.refl _) <| .firstOf (list_same h) <| .firstOf (subdivision_same h) <| .firstOf (cycle_same h) <| .refl _

theorem operation_same (h : SameBelow n p q) : SameBelow (n + 1) (operation p) (operation q) :=
  .firstOf (.bind (.refl _) fun _ => .bind (operand_same h) fun _ => .refl _) <|
    .firstOf (.refl _) <|
    .firstOf (.bind (.refl _) fun _ => .bind (operand_same h) fun _ => .refl _) <| .refl _

theorem listTail_same (h : SameBelow n p q) : SameBelow (n + 1) (listTail p) (listTail q) :=
  .firstOf (.bind (.refl _) fun _ => .bind (list_same h).optional fun _ => .refl _) <|
    .firstOf ((operation_same h).many.map _) <| .refl _

theorem listLike_same (h : SameBelow n p q) : SameBelow (n + 1) (listLike p) (listLike q) :=
  .bind (.consumed (.bind (list_same h) fun _ => .bind (listTail_same h) fun _ => .refl _)) fun _ => .refl _

theorem count_same (h : SameBelow n p q) : SameBelow (n + 1) (count p) (count q) :=
  .firstOf (.refl _) <| .firstOf (cycle_same h) <| .refl _

theorem repetition_same (h : SameBelow n p q) (opening closing : Char) (replayed : Bool) :
    SameBelow (n + 1) (repetition p opening closing replayed) (repetition q opening closing replayed) :=
  .bind
    (.consumed (.bind_productive fun _ => .bind h.many fun _ => .bind (.refl _) fun _ =>
      .bind (count_same h).succ.optional fun _ => .refl _))
    fun _ => .refl _

theorem assignment_same (h : SameBelow n p q) : SameBelow (n + 1) (assignment p) (assignment q) :=
  .bind
    (.consumed (.bind_productive fun _ => .bind (.refl _) fun _ => .bind (h.mapSome _) fun _ => .refl _))
    fun _ => .refl _

/-- **A rule reads the items inside it from a shorter text.** -/
theorem itemOver_same (h : SameBelow n p q) : SameBelow (n + 1) (itemOver p) (itemOver q) :=
  .firstOf (.refl blank) <| .firstOf (.refl bar) <| .firstOf (assignment_same h) <| .firstOf (.refl together) <|
    .firstOf (.refl variableUse) <| .firstOf (repetition_same h '[' ']' true) <|
    .firstOf (repetition_same h '(' ')' false) <| .firstOf (.refl randomInteger) <|
    .firstOf (listLike_same h) <| .firstOf (subdivision_same h) <| .firstOf (.refl control) <|
    .firstOf (.refl block) <| .firstOf (.refl range) <| .firstOf (.refl numeral) <| .firstOf (.refl rest) <|
    .firstOf (.refl randomPitch) <| .firstOf (.refl chord) <| .firstOf (.refl pitch) <|
    .firstOf (cycle_same h) <| .refl _

end Rules

/-! ### Depth is no limit -/

/-- Levels of nesting that no text below a length can reach do not matter. -/
theorem itemTo_sameBelow (n : Nat) :
    ∀ {depth depth' : Nat}, n ≤ depth → n ≤ depth' → SameBelow n (itemTo depth) (itemTo depth') := by
  induction n with
  | zero =>
    intro _ _ _ _ text hlt
    omega
  | succ n ih =>
    intro depth depth' hdepth hdepth'
    obtain ⟨d, rfl⟩ := Nat.exists_eq_add_of_le' hdepth
    obtain ⟨d', rfl⟩ := Nat.exists_eq_add_of_le' hdepth'
    have := faithful_itemTo (d + n)
    exact itemOver_same (ih (Nat.le_add_left n d) (Nat.le_add_left n d'))

/-- **Items are items over items.** -/
theorem item_eq : item = itemOver item := by
  funext text
  have hsame : SameBelow text.length (itemTo text.length) item := by
    intro inside hlt
    exact itemTo_sameBelow (inside.length + 1) hlt (Nat.le_refl _) inside (Nat.lt_succ_self _)
  have := faithful_itemTo text.length
  exact itemOver_same hsame text (Nat.lt_succ_self _)

end Grammar

end NumberedMelody
