/-
  NumberedMelody/Decimal/Shortest.lean
  ====================================
  **The fewest decimal digits that read back to a double.**  The reals that
  round to `m · 2^q` form an interval.  A decimal `c · 10^k` with the fewest
  digits is a point of that interval on the coarsest grid of powers of ten
  that has one, and it is a neighbour of `m · 2^q` on that grid.  Everything
  is compared exactly, by cross-multiplying naturals.
-/

namespace NumberedMelody.Decimal

/-- The decimal `coefficient · 10 ^ exponent`. -/
structure Digits where
  coefficient : Nat
  exponent : Int
  deriving Repr, DecidableEq

/-- Which neighbour is taken when both are equally near. -/
inductive Tie where
  | up
  | toEven
  deriving Repr, DecidableEq

/-- `a · 2^i` and `c · 10^k` on one scale of naturals. -/
def scaled (a : Nat) (i : Int) (c : Nat) (k : Int) : Nat × Nat :=
  (a * Nat.pow 2 i.toNat * Nat.pow 10 (-k).toNat, c * Nat.pow 10 k.toNat * Nat.pow 2 (-i).toNat)

/-- `a · 2^i` compared with `c · 10^k`. -/
def compareScaled (a : Nat) (i : Int) (c : Nat) (k : Int) : Ordering :=
  let (x, y) := scaled a i c k
  compare x y

/-- `c · 10^k` is among the reals that round to `m · 2^q`.  The ends of the
    interval belong to it when `m` is even; just above a power of two the
    lower half of the interval is half as wide. -/
def readsBack (m : Nat) (q : Int) (c : Nat) (k : Int) : Bool :=
  let low := if m = Nat.pow 2 52 ∧ -1074 < q then 4 * m - 1 else 4 * m - 2
  let closed := m % 2 == 0
  let below := compareScaled low (q - 2) c k
  let above := compareScaled (4 * m + 2) (q - 2) c k
  (below == .lt || (closed && below == .eq)) && (above == .gt || (closed && above == .eq))

/-- The nearer of the grid points `c · 10^k` and `(c + 1) · 10^k` to `m · 2^q`. -/
def nearer (tie : Tie) (m : Nat) (q : Int) (c : Nat) (k : Int) : Nat :=
  match compareScaled (2 * m) q (2 * c + 1) k, tie with
  | .lt, _ => c
  | .gt, _ => c + 1
  | .eq, .up => c + 1
  | .eq, .toEven => if c % 2 = 0 then c else c + 1

/-- The point of the grid `10^k` at or below `m · 2^q`. -/
def gridFloor (m : Nat) (q k : Int) : Nat :=
  let (x, unit) := scaled m q 1 k
  x / unit

/-- The nearest point of the grid `10^k` that reads back, if one does. -/
def onGrid (tie : Tie) (m : Nat) (q k : Int) : Option Nat :=
  let c := gridFloor m q k
  match readsBack m q c k, readsBack m q (c + 1) k with
  | true, true => some (nearer tie m q c k)
  | true, false => some c
  | false, true => some (c + 1)
  | false, false => none

/-- A power of ten above `m · 2^q`, at most two too high: 30103 / 100000 is
    just above the decimal logarithm of two. -/
def topGrid (m : Nat) (q : Int) : Int := (m.log2 + 1 + q) * 30103 / 100000 + 1

/-- Search finer and finer grids from `10^k` on. -/
def coarsest (tie : Tie) (m : Nat) (q : Int) : Nat → Int → Digits
  | 0, k => ⟨gridFloor m q k, k⟩
  | grids + 1, k =>
    match onGrid tie m q k with
    | some c => ⟨c, k⟩
    | none => coarsest tie m q grids (k - 1)

/-- The fewest digits that read back to `m · 2^q`.  Seventeen always do, and
    the search starts at most two places above the leading digit. -/
def shortest (tie : Tie) (m : Nat) (q : Int) : Digits :=
  if m = 0 then ⟨0, 0⟩ else coarsest tie m q 20 (topGrid m q)

/-- The exponent of the leading digit, searched downwards from `10^k`. -/
def leadingFrom (m : Nat) (q : Int) : Nat → Int → Int
  | 0, k => k
  | steps + 1, k => if gridFloor m q k = 0 then leadingFrom m q steps (k - 1) else k

/-- `m · 2^q` rounded to `places` significant digits, a tie to the even digit. -/
def significant (places : Nat) (m : Nat) (q : Int) : Digits :=
  if m = 0 then ⟨0, 1 - places⟩
  else
    let k := leadingFrom m q 3 (topGrid m q) + 1 - places
    let c := nearer .toEven m q (gridFloor m q k) k
    if c = Nat.pow 10 places then ⟨Nat.pow 10 (places - 1), k + 1⟩ else ⟨c, k⟩

end NumberedMelody.Decimal
