/-
  NumberedMelody/Expr/Grammar.lean
  ================================
  **Reading expressions.**  From loosest to tightest: the conditional, one
  comparison, sums, products, unary minus, powers.  Sums and products
  associate to the left, a power to the right; there are no blanks inside an
  expression.
-/
import NumberedMelody.Decimal.Numeral
import NumberedMelody.Expr
import NumberedMelody.Grammar.Reader

namespace NumberedMelody.Expr

open Reader

/-- Digits, with or without digits after a point. -/
def numberLiteral : Reader Float := do
  let whole ← digits
  let fraction ← optional (do let _ ← char '.'; digits)
  let places := fraction.getD []
  return Decimal.nearest (Decimal.digitsValue (whole ++ places)) (-(places.length : Int))

/-- A number, the variable, or an expression in round brackets. -/
def primary (inner : Reader Expr) : Reader Expr :=
  firstOf [Expr.number <$> numberLiteral, (fun _ => Expr.x) <$> char 'x', between '(' ')' inner]

/-- A primary expression, raised to a power or not. -/
def power (inner unary : Reader Expr) : Reader Expr := do
  let base ← primary inner
  let exponent ← optional (do exactly ['*', '*']; unary)
  return match exponent with
    | some e => .binary .power base e
    | none => base

/-- A single asterisk, which no other follows. -/
def asterisk : Reader Char := do
  let c ← char '*'
  fun text => if text.head? = some '*' then none else some (c, text)

def productSign : Reader BinaryOperator :=
  firstOf [(fun _ => .multiply) <$> asterisk, (fun _ => .divide) <$> char '/', (fun _ => .modulo) <$> char '%']

def sumSign : Reader BinaryOperator :=
  firstOf [(fun _ => .add) <$> char '+', (fun _ => .subtract) <$> char '-']

/-- The signs of comparisons; the longer ones first. -/
def comparisonSign : Reader BinaryOperator :=
  firstOf
    [(fun _ => .equal) <$> exactly ['=', '='], (fun _ => .unequal) <$> exactly ['!', '='],
      (fun _ => .atMost) <$> exactly ['<', '='], (fun _ => .atLeast) <$> exactly ['>', '='],
      (fun _ => .less) <$> char '<', (fun _ => .greater) <$> char '>']

def joinLeft (first : Expr) (steps : List (BinaryOperator × Expr)) : Expr :=
  steps.foldl (fun left (op, right) => .binary op left right) first

/-- A sign and the operand after it. -/
def signed (sign : Reader BinaryOperator) (operand : Reader Expr) : Reader (BinaryOperator × Expr) := do
  let op ← sign
  let right ← operand
  return (op, right)

def chain (sign : Reader BinaryOperator) (operand : Reader Expr) : Reader Expr := do
  let first ← operand
  let steps ← many (signed sign operand)
  return joinLeft first steps

/-- Two sums compared, or a sum alone. -/
def comparison (unary : Reader Expr) : Reader Expr := do
  let sum := chain sumSign (chain productSign unary)
  let first ← sum
  let step ← optional (signed comparisonSign sum)
  return joinLeft first step.toList

/-- A condition with two branches, or a comparison alone. -/
def choice (inner unary : Reader Expr) : Reader Expr := do
  let condition ← comparison unary
  let branches ← optional do
    let _ ← char '?'
    let yes ← inner
    let _ ← char ':'
    let no ← inner
    return (yes, no)
  return match branches with
    | some (yes, no) => .conditional condition yes no
    | none => condition

mutual

/-- An operand of a product, to a depth of nesting. -/
def unaryTo : Nat → Reader Expr
  | 0 => fail
  | depth + 1 =>
    firstOf
      [do
          let _ ← char '-'
          let e ← unaryTo depth
          return .negate e,
        power (readTo depth) (unaryTo depth)]

/-- An expression, to a depth of nesting. -/
def readTo : Nat → Reader Expr
  | 0 => fail
  | depth + 1 => choice (readTo depth) (unaryTo depth)

end

/-- An expression at the start of a text.  Every second level of nesting takes
    a character, so the text bounds the depth. -/
def read : Reader Expr := fun text => readTo (2 * text.length + 2) text

end NumberedMelody.Expr
