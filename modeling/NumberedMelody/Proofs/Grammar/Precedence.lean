/-
  NumberedMelody/Proofs/Grammar/Precedence.lean
  =============================================
  **The precedence of expressions.**  `Derives` is the grammar of expressions,
  one rule for each way to write one: it says which texts are of a level and
  what they stand for.

  A tree is printed with brackets only around a part that is looser than its
  place (`Tree.text`).  What is printed belongs to the grammar
  (`Tree.derives`).
-/
import NumberedMelody.Expr.Grammar

namespace NumberedMelody

namespace Expr

/-- The levels of the grammar, from the tightest to the loosest. -/
inductive Level where
  | primary
  | power
  | unary
  | product
  | sum
  | comparison
  | expression
  deriving DecidableEq, Repr

namespace Level

def rank : Level → Nat
  | .primary => 0
  | .power => 1
  | .unary => 2
  | .product => 3
  | .sum => 4
  | .comparison => 5
  | .expression => 6

/-- The next tighter level. -/
def tighter : Level → Level
  | .primary => .primary
  | .power => .primary
  | .unary => .power
  | .product => .unary
  | .sum => .product
  | .comparison => .sum
  | .expression => .comparison

theorem rank_tighter (level : Level) : level.tighter.rank = level.rank - 1 := by
  cases level <;> rfl

theorem eq_of_rank_eq {level place : Level} (h : level.rank = place.rank) : level = place := by
  revert h
  cases level <;> cases place <;> decide

end Level

end Expr

/-! ### Operators -/

namespace BinaryOperator

/-- The level of what an operator makes of its operands. -/
def level : BinaryOperator → Expr.Level
  | .add | .subtract => .sum
  | .multiply | .divide | .modulo => .product
  | .power => .power
  | .equal | .unequal | .less | .atMost | .greater | .atLeast => .comparison

/-- The level of the operand in front.  Sums and products may stand in front of
    an operator of their own, comparisons may not. -/
def leftLevel : BinaryOperator → Expr.Level
  | .add | .subtract => .sum
  | .multiply | .divide | .modulo => .product
  | .power => .primary
  | .equal | .unequal | .less | .atMost | .greater | .atLeast => .sum

/-- The level of the operand behind.  An exponent may be negative, and a power
    itself. -/
def rightLevel : BinaryOperator → Expr.Level
  | .add | .subtract => .product
  | .multiply | .divide | .modulo => .unary
  | .power => .unary
  | .equal | .unequal | .less | .atMost | .greater | .atLeast => .sum

end BinaryOperator

namespace Expr

/-! ### The grammar -/

/-- Digits, with or without digits after a point. -/
structure Literal where
  whole : List Char
  places : Option (List Char)
  whole_ne_nil : whole ≠ []
  places_ne_nil : places ≠ some []
  whole_digits : whole.all Char.isDigit = true
  places_digits : (places.getD []).all Char.isDigit = true

namespace Literal

def text (l : Literal) : List Char := l.whole ++ (l.places.map ('.' :: ·)).getD []

/-- The double nearest to the decimal. -/
def value (l : Literal) : Float := Decimal.Numeral.toFloat { whole := l.whole, fraction := l.places, exponent := none }

theorem value_eq (l : Literal) :
    l.value =
      Decimal.nearest (Decimal.digitsValue (l.whole ++ l.places.getD [])) (-((l.places.getD []).length : Int)) := by
  show Decimal.nearest _ (0 - _) = _
  rw [Int.zero_sub]

end Literal

/-- **The grammar of expressions**: a text of a level, and what it stands for. -/
inductive Derives : Level → List Char → Expr → Prop where
  | number (l : Literal) : Derives .primary l.text (.number l.value)
  | x : Derives .primary ['x'] .x
  | bracketed {text : List Char} {e : Expr} :
      Derives .expression text e → Derives .primary ('(' :: (text ++ [')'])) e
  | negate {text : List Char} {e : Expr} : Derives .unary text e → Derives .unary ('-' :: text) (.negate e)
  | binary {left right : List Char} {a b : Expr} (op : BinaryOperator) :
      Derives op.leftLevel left a → Derives op.rightLevel right b →
        Derives op.level (left ++ (op.symbol.toList ++ right)) (.binary op a b)
  | conditional {condition yes no : List Char} {c a b : Expr} :
      Derives .comparison condition c → Derives .expression yes a → Derives .expression no b →
        Derives .expression (condition ++ ('?' :: (yes ++ (':' :: no)))) (.conditional c a b)
  | loosen {level : Level} {text : List Char} {e : Expr} : Derives level.tighter text e → Derives level text e

/-- A text does not start with a character that would make a longer sign of an
    operator in front of it. -/
def Opens (text : List Char) : Prop := ∃ c more, text = c :: more ∧ c ≠ '*' ∧ c ≠ '='

theorem Opens.append {text : List Char} (h : Opens text) (more : List Char) : Opens (text ++ more) := by
  obtain ⟨c, text, rfl, hc⟩ := h
  exact ⟨c, text ++ more, rfl, hc⟩

theorem Opens.ne_nil {text : List Char} (h : Opens text) : text ≠ [] := by
  obtain ⟨c, more, rfl, -⟩ := h
  exact List.cons_ne_nil c more

theorem Literal.opens (l : Literal) : Opens l.text := by
  obtain ⟨c, more, hwhole⟩ := List.exists_cons_of_ne_nil l.whole_ne_nil
  have hdigit : c.isDigit = true := List.all_eq_true.mp l.whole_digits c (hwhole ▸ List.mem_cons_self)
  have hsign : c ≠ '*' ∧ c ≠ '=' := by
    constructor <;>
    · rintro rfl
      exact absurd hdigit (by decide)
  exact Opens.append ⟨c, more, hwhole, hsign⟩ _

namespace Derives

variable {level place : Level} {text : List Char} {e : Expr}

/-- What is of a level is of every looser level. -/
theorem loosen_of_le (h : Derives level text e) (hle : level.rank ≤ place.rank) : Derives place text e := by
  induction hgap : place.rank - level.rank generalizing place with
  | zero =>
    obtain rfl := Level.eq_of_rank_eq (Nat.le_antisymm hle (Nat.sub_eq_zero_iff_le.mp hgap))
    exact h
  | succ gap ih =>
    have hrank := place.rank_tighter
    exact .loosen (ih (by omega) (by omega))

/-- An expression starts with a digit, the variable, a bracket or a minus. -/
theorem opens (h : Derives level text e) : Opens text := by
  induction h with
  | number l => exact l.opens
  | x => exact ⟨'x', [], rfl, by decide, by decide⟩
  | bracketed => exact ⟨'(', _, rfl, by decide, by decide⟩
  | negate => exact ⟨'-', _, rfl, by decide, by decide⟩
  | binary op _ _ ihleft _ => exact ihleft.append _
  | conditional _ _ _ ihcondition _ _ => exact ihcondition.append _
  | loosen _ ih => exact ih

end Derives

/-! ### Trees and their texts -/

/-- Expressions with the numbers as they are written. -/
inductive Tree where
  | number (literal : Literal)
  | x
  | negate (e : Tree)
  | binary (op : BinaryOperator) (left right : Tree)
  | conditional (condition yes no : Tree)

/-- A text of a level in a place for another: in brackets if it is too loose
    for the place. -/
def fitted (level place : Level) (text : List Char) : List Char :=
  if level.rank ≤ place.rank then text else '(' :: (text ++ [')'])

namespace Tree

/-- The expression, with the values of the numbers. -/
def expr : Tree → Expr
  | .number literal => .number literal.value
  | .x => .x
  | .negate e => .negate e.expr
  | .binary op left right => .binary op left.expr right.expr
  | .conditional condition yes no => .conditional condition.expr yes.expr no.expr

def level : Tree → Level
  | .number _ => .primary
  | .x => .primary
  | .negate _ => .unary
  | .binary op _ _ => op.level
  | .conditional _ _ _ => .expression

/-- A tree, printed with brackets only where they are needed. -/
def text : Tree → List Char
  | .number literal => literal.text
  | .x => ['x']
  | .negate e => '-' :: fitted e.level .unary e.text
  | .binary op left right =>
    fitted left.level op.leftLevel left.text ++ (op.symbol.toList ++ fitted right.level op.rightLevel right.text)
  | .conditional condition yes no =>
    fitted condition.level .comparison condition.text ++
      ('?' :: (fitted yes.level .expression yes.text ++ (':' :: fitted no.level .expression no.text)))

end Tree

theorem derives_fitted {level place : Level} {text : List Char} {e : Expr} (h : Derives level text e) :
    Derives place (fitted level place text) e := by
  unfold fitted
  by_cases hle : level.rank ≤ place.rank
  · rw [if_pos hle]
    exact h.loosen_of_le hle
  · rw [if_neg hle]
    have hwhole : Derives .expression text e := h.loosen_of_le (by cases level <;> decide)
    exact hwhole.bracketed.loosen_of_le (Nat.zero_le _)

/-- **A printed tree belongs to the grammar**, at the level of the tree. -/
theorem Tree.derives (e : Tree) : Derives e.level e.text e.expr := by
  induction e with
  | number literal => exact .number literal
  | x => exact .x
  | negate e ih => exact .negate (derives_fitted ih)
  | binary op left right ihleft ihright => exact .binary op (derives_fitted ihleft) (derives_fitted ihright)
  | conditional condition yes no ihcondition ihyes ihno =>
    exact .conditional (derives_fitted ihcondition) (derives_fitted ihyes) (derives_fitted ihno)

example :
    (Tree.binary .power (.negate .x) (.negate (.binary .power .x .x))).text = ['(', '-', 'x', ')', '*', '*', '-', 'x',
      '*', '*', 'x'] := by decide

end Expr

end NumberedMelody
