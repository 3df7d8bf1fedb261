/-
  NumberedMelody/Proofs/Grammar/SteadyItems.lean
  ==============================================
  **Items are steady.**  Every rule of the notation is: none that has matched
  within a text reads otherwise when a separator or a closing sign, and any text
  after it, follows.  Only a blank looks on, over the separators of its own run,
  and so an item is steady inside groups, where the text does not end, and where
  only values are read; outside them it is so before the end of a text.
-/
import NumberedMelody.Proofs.Grammar.Expressions

namespace NumberedMelody

open Reader
open Text (isSeparator)

namespace Grammar

/-! ### Rules without items inside -/

section Leaves

variable {depth : Nat}

instance {place : Place} [Crosses .closing place place isSeparator] : Steady .closing place place blank :=
  inferInstanceAs (Steady .closing place place (_ <$> consumed (run1 _)))

instance {place : Place} : Steady .closing place place bar := by
  unfold bar
  infer_instance

instance : Steady .closing (.inGroups depth) (.inGroups depth) control := by
  unfold control
  infer_instance

instance : Steady .closing (.inGroups depth) (.inGroups depth) chord := by
  unfold chord
  infer_instance

instance : Steady .closing (.inGroups depth) (.inGroups depth) pitch := by
  unfold pitch
  infer_instance

instance : Steady .closing (.inGroups depth) (.inGroups depth) rest := by
  unfold rest
  infer_instance

instance : Steady .closing (.inGroups depth) (.inGroups depth) randomPitch := by
  unfold randomPitch
  infer_instance

instance : Steady .closing (.inGroups depth) (.inGroups depth) randomInteger := by
  unfold randomInteger
  infer_instance

instance : Steady .closing (.inGroups depth) (.inGroups depth) range := by
  unfold range
  infer_instance

instance : Steady .closing (.inGroups depth) (.inGroups depth) numeral := by
  unfold numeral
  infer_instance

instance : Steady .closing (.inBraces depth) (.inBraces depth) expressionItem := by
  unfold expressionItem
  infer_instance

instance : Steady .closing (.inGroups depth) (.inGroups depth) block := by
  unfold block
  infer_instance

instance {place : Place} : Steady .closing place place variableUse := by
  unfold variableUse
  infer_instance

instance {place : Place} : Steady .closing place place together := by
  unfold together
  infer_instance

instance : Steady .closing (.inGroups depth) (.inGroups depth) rhythm := by
  unfold rhythm
  infer_instance

end Leaves

/-! ### Blanks and other items -/

section Blanks

variable {item : Reader Node} {text rest more : List Char}

/-- The rules of an item that is no blank. -/
def solid (item : Reader Node) : Reader Node :=
  firstOf
    [bar, assignment item, together, variableUse, repetition item '[' ']' true, repetition item '(' ')' false,
      randomInteger, listLike item, subdivision item, control, block, range, numeral, Grammar.rest, randomPitch,
      chord, pitch, cycle item]

theorem itemOver_apply (item : Reader Node) (text : List Char) :
    itemOver item text =
      match blank text with
      | some result => some result
      | none => solid item text := by
  show firstOf (blank :: _) text = _
  simp only [firstOf]
  cases blank text <;> rfl

instance [Faithful item] : Productive (solid item) := by
  unfold solid
  infer_instance

theorem solid_nil [Faithful item] : solid item [] = none := by
  cases h : solid item [] with
  | none => rfl
  | some pair => exact absurd (Productive.shorter h) (Nat.not_lt_zero _)

theorem isValue_of_blank {node : Node} (h : blank text = some (node, rest)) : node.isValue = false := by
  obtain ⟨_, -, rfl⟩ := map_eq_some.mp h
  rfl

theorem blank_isSome (c : Char) (text : List Char) : (blank (c :: text)).isSome = isSeparator c := by
  cases h : isSeparator c <;> simp [blank, map_apply, consumed, separators, run1, h]

/-- A value is read only where no blank is. -/
theorem verify_itemOver (item : Reader Node) (text : List Char) :
    verify Node.isValue (itemOver item) text =
      if (blank text).isSome = true then none else verify Node.isValue (solid item) text := by
  unfold verify mapSome
  rw [itemOver_apply]
  cases h : blank text with
  | none => rfl
  | some pair =>
    obtain ⟨node, rest⟩ := pair
    simp [isValue_of_blank h]

theorem blank_leads {node : Node} {depth : Nat} (h : blank text = some (node, rest)) :
    ∃ front, text = front ++ rest ∧ (Place.inGroups depth).after front = some (.inGroups depth) := by
  obtain ⟨⟨taken, run⟩, hconsumed, -⟩ := map_eq_some.mp h
  exact run1_leads step_separator (consumed_eq_some.mp hconsumed).2

/-- A run of separators at the start of a text ends within the text, since none
    follows one that the text ends with. -/
theorem blank_append (hne : text ≠ []) (h : Meets .closing (.inGroups 0) text more) :
    blank (text ++ more) = (blank text).map (followedBy more) := by
  have hrun : separators (text ++ more) = (separators text).map (followedBy more) := by
    apply run1_append
    obtain ⟨sign, -, others, rfl, hlast⟩ := h.follows
    cases hsign : isSeparator sign with
    | false =>
      right
      rintro c ⟨⟩
      exact hsign
    | true =>
      left
      exact ⟨text.getLast hne, List.getLast_mem hne, hlast hsign _ (List.getLast?_eq_some_getLast hne)⟩
  unfold blank
  rw [map_apply, map_apply, consumed_append hrun]
  cases consumed separators text <;> rfl

end Blanks

/-! ### Rules with items inside -/

section Rules

variable {item : Reader Node} {depth : Nat}
  [∀ depth, Steady .closing (.inGroups (depth + 1)) (.inGroups (depth + 1)) item]

instance : Steady .closing (.inGroups depth) (.inGroups depth) (list item) := by
  unfold list
  infer_instance

instance : Steady .closing (.inGroups depth) (.inGroups depth) (subdivision item) := by
  unfold subdivision
  infer_instance

instance : Steady .closing (.inGroups depth) (.inGroups depth) (cycle item) := by
  unfold cycle
  infer_instance

instance : Steady .closing (.inGroups depth) (.inGroups depth) (operand item) := by
  unfold operand
  infer_instance

instance : Steady .closing (.inGroups depth) (.inGroups depth) (operation item) := by
  unfold operation
  infer_instance

instance : Steady .closing (.inGroups depth) (.inGroups depth) (listTail item) := by
  unfold listTail
  infer_instance

instance : Steady .closing (.inGroups depth) (.inGroups depth) (listLike item) := by
  unfold listLike
  infer_instance

instance : Steady .closing (.inGroups depth) (.inGroups depth) (count item) := by
  unfold count
  infer_instance

instance : Steady .closing (.inGroups depth) (.inGroups depth) (repetition item '[' ']' true) := by
  unfold repetition
  infer_instance

instance : Steady .closing (.inGroups depth) (.inGroups depth) (repetition item '(' ')' false) := by
  unfold repetition
  infer_instance

variable [∀ depth, Steady .closing (.inGroups depth) (.inGroups depth) (verify Node.isValue item)]

instance : Steady .closing (.inGroups depth) (.inGroups depth) (assignment item) := by
  unfold assignment
  infer_instance

/-! ### Items -/

instance : Steady .closing (.inGroups (depth + 1)) (.inGroups (depth + 1)) (itemOver item) := by
  unfold itemOver
  infer_instance

instance : Steady .closing (.inGroups depth) (.inGroups depth) (solid item) := by
  unfold solid
  infer_instance

theorem itemOver_leads {text rest : List Char} {node : Node} (h : itemOver item text = some (node, rest)) :
    ∃ front, text = front ++ rest ∧ (Place.inGroups depth).after front = some (.inGroups depth) := by
  rw [itemOver_apply] at h
  cases hblank : blank text with
  | some pair =>
    rw [hblank] at h
    obtain rfl := Option.some.inj h
    exact blank_leads hblank
  | none =>
    rw [hblank] at h
    exact taken_from (p := solid item) .closing (.inGroups depth) h

theorem itemOver_append {text more : List Char} (hne : text ≠ []) (h : Meets .closing (.inGroups 0) text more) :
    itemOver item (text ++ more) = (itemOver item text).map (followedBy more) := by
  rw [itemOver_apply, itemOver_apply, blank_append hne h, Steady.append (p := solid item) h]
  cases blank text <;> rfl

variable [Faithful item]

/-- What may follow a pattern starts with a blank, or nothing is read there. -/
theorem solid_of_meets {more : List Char} (h : Meets .closing (.inGroups 0) [] more) : solid item more = none := by
  have hmore := Steady.append (p := solid item) h
  rw [solid_nil] at hmore
  exact hmore

instance : Steady .closing (.inGroups depth) (.inGroups depth) (verify Node.isValue (itemOver item)) where
  leads {text node rest} h := by
    rw [verify_itemOver] at h
    split at h
    · cases h
    · exact Steady.leads .closing h
  append {text more} h := by
    rw [verify_itemOver, verify_itemOver]
    cases text with
    -- what follows the text starts with a blank, which is no value, or with nothing that is read
    | nil =>
      obtain rfl := Place.inGroups.inj h.at_end
      simp only [verify, mapSome, List.nil_append, solid_nil, solid_of_meets h, ite_self, Option.map_none]
    | cons c text =>
      rw [List.cons_append, blank_isSome, blank_isSome]
      cases isSeparator c with
      | true => rfl
      | false => exact Steady.append (p := verify Node.isValue (solid item)) h

end Rules

/-! ### Items over items -/

theorem steady_itemTo (level : Nat) :
    (∀ depth, Steady .closing (.inGroups (depth + 1)) (.inGroups (depth + 1)) (itemTo level)) ∧
      ∀ depth, Steady .closing (.inGroups depth) (.inGroups depth) (verify Node.isValue (itemTo level)) := by
  induction level with
  | zero =>
    constructor
    · intro depth
      exact inferInstanceAs (Steady _ _ _ (firstOf []))
    · intro depth
      exact inferInstanceAs (Steady _ _ _ (verify Node.isValue (firstOf [])))
  | succ level ih =>
    obtain ⟨hinside, hvalue⟩ := ih
    have := faithful_itemTo level
    rw [itemTo]
    exact ⟨inferInstance, inferInstance⟩

theorem item_eq_itemTo (text : List Char) (level : Nat) (h : text.length + 1 ≤ level) : item text = itemTo level text :=
  itemTo_sameBelow (text.length + 1) (Nat.le_refl _) h text (Nat.lt_succ_self _)

instance {depth : Nat} : Steady .closing (.inGroups (depth + 1)) (.inGroups (depth + 1)) item :=
  steady_of_levels (· + 1) (fun level => (steady_itemTo level).1 depth) item_eq_itemTo

instance {depth : Nat} : Steady .closing (.inGroups depth) (.inGroups depth) (verify Node.isValue item) := by
  apply steady_of_levels (· + 1) fun level => (steady_itemTo level).2 depth
  intro text level h
  unfold verify mapSome
  rw [item_eq_itemTo text level h]

theorem item_append {text more : List Char} (hne : text ≠ []) (h : Meets .closing (.inGroups 0) text more) :
    item (text ++ more) = (item text).map (followedBy more) := by
  rw [item_eq]
  exact itemOver_append hne h

theorem item_leads {text rest : List Char} {node : Node} (h : item text = some (node, rest)) :
    ∃ front, text = front ++ rest ∧ (Place.inGroups 0).after front = some (.inGroups 0) := by
  rw [item_eq] at h
  exact itemOver_leads h

end Grammar

end NumberedMelody
