/-
  NumberedMelody/Expr.lean
  ========================
  **Arithmetic expressions** of the blocks between braces: numbers, the
  variable `x`, unary minus, powers, products, sums, comparisons and a
  conditional.  A comparison is 1 or 0, and a condition holds unless it is 0.
-/
import NumberedMelody.Binary64
import NumberedMelody.Failure

namespace NumberedMelody

/-- Operators with two operands. -/
inductive BinaryOperator where
  | add
  | subtract
  | multiply
  | divide
  | modulo
  | power
  | equal
  | unequal
  | less
  | atMost
  | greater
  | atLeast
  deriving Repr, DecidableEq, Inhabited

def BinaryOperator.symbol : BinaryOperator → String
  | .add => "+"
  | .subtract => "-"
  | .multiply => "*"
  | .divide => "/"
  | .modulo => "%"
  | .power => "**"
  | .equal => "=="
  | .unequal => "!="
  | .less => "<"
  | .atMost => "<="
  | .greater => ">"
  | .atLeast => ">="

/-- Arithmetic expressions over one variable. -/
inductive Expr where
  | number (value : Float)
  | x
  | negate (e : Expr)
  | binary (op : BinaryOperator) (left right : Expr)
  | conditional (condition yes no : Expr)
  deriving Repr, BEq, Inhabited

def truth (b : Bool) : Float := if b then 1.0 else 0.0

/-- Apply an operator.  A remainder takes the sign of its divisor. -/
def BinaryOperator.apply (op : BinaryOperator) (a b : Float) : Except Failure Float :=
  match op with
  | .add => .ok (a + b)
  | .subtract => .ok (a - b)
  | .multiply => .ok (a * b)
  | .divide => if b == 0.0 then .error .divisionByZero else .ok (a / b)
  | .modulo => if b == 0.0 then .error .divisionByZero else .ok (a - b * Binary64.floor (a / b))
  | .power => .ok (Float.pow a b)
  | .equal => .ok (truth (a == b))
  | .unequal => .ok (truth (a != b))
  | .less => .ok (truth (a < b))
  | .atMost => .ok (truth (a ≤ b))
  | .greater => .ok (truth (b < a))
  | .atLeast => .ok (truth (b ≤ a))

/-- The value of an expression where the variable has a value, or has none.
    Only the branch that a condition chooses is evaluated. -/
def Expr.eval (given : Option Float) : Expr → Except Failure Float
  | .number value => .ok value
  | .x => match given with
    | some value => .ok value
    | none => .error .unboundVariable
  | .negate e => return -(← e.eval given)
  | .binary op left right => do
    let a ← left.eval given
    let b ← right.eval given
    op.apply a b
  | .conditional condition yes no => do
    let c ← condition.eval given
    if c != 0.0 then yes.eval given else no.eval given

end NumberedMelody
