/-
  NumberedMelody/Random/Stream.lean
  =================================
  **The stream of raw draws.**  A seed is spread into a key, and the key into
  an endless stream of 64-bit draws, a block of eight at a time.  Each draw is
  a function of the key and its place in the stream, so a stream has no state
  but its position.
-/

namespace NumberedMelody.Random

/-- Four words, mixed together as one row of a block. -/
structure Row where
  a : UInt32
  b : UInt32
  c : UInt32
  d : UInt32
  deriving Repr, DecidableEq, Inhabited

namespace Row

def zipWith (f : UInt32 → UInt32 → UInt32) (x y : Row) : Row :=
  ⟨f x.a y.a, f x.b y.b, f x.c y.c, f x.d y.d⟩

/-- Rotate every word to the left, by a count between 1 and 31. -/
def rotateWords (count : UInt32) (x : Row) : Row :=
  let rotate (w : UInt32) := (w <<< count) ||| (w >>> (32 - count))
  ⟨rotate x.a, rotate x.b, rotate x.c, rotate x.d⟩

def turn (x : Row) : Row := ⟨x.b, x.c, x.d, x.a⟩

def words (x : Row) : List UInt32 := [x.a, x.b, x.c, x.d]

end Row

/-- Four rows: constants, two rows of key, and the position. -/
structure Block where
  r0 : Row
  r1 : Row
  r2 : Row
  r3 : Row
  deriving Repr, DecidableEq, Inhabited

namespace Block

/-- Add the second row to the first and fold the sum into the fourth. -/
def stir (x y z : Row) (count : UInt32) : Row × Row :=
  let x := x.zipWith (· + ·) y
  (x, (z.zipWith (· ^^^ ·) x).rotateWords count)

def columns (s : Block) : Block :=
  let (r0, r3) := stir s.r0 s.r1 s.r3 16
  let (r2, r1) := stir s.r2 r3 s.r1 12
  let (r0, r3) := stir r0 r1 r3 8
  let (r2, r1) := stir r2 r3 r1 7
  ⟨r0, r1, r2, r3⟩

def doubleRound (s : Block) : Block :=
  let s := s.columns
  let t := columns ⟨s.r0, s.r1.turn, s.r2.turn.turn, s.r3.turn.turn.turn⟩
  ⟨t.r0, t.r1.turn.turn.turn, t.r2.turn.turn, t.r3.turn⟩

def add (s t : Block) : Block :=
  ⟨s.r0.zipWith (· + ·) t.r0, s.r1.zipWith (· + ·) t.r1, s.r2.zipWith (· + ·) t.r2,
    s.r3.zipWith (· + ·) t.r3⟩

/-- Twelve rounds, added to where they started. -/
def mixed (s : Block) : Block := add (Nat.repeat doubleRound 6 s) s

/-- The words of the block in order. -/
def words (s : Block) : List UInt32 := s.r0.words ++ s.r1.words ++ s.r2.words ++ s.r3.words

end Block

/-- The eight words that a stream is keyed with. -/
structure StreamKey where
  low : Row
  high : Row
  deriving Repr, DecidableEq, Inhabited

/-- One step of the recurrence that spreads a seed. -/
def spreadStep (state : UInt64) : UInt64 := state * 6364136223846793005 + 11634580027462260723

/-- The word that a state of the recurrence gives: its high bits folded, and
    rotated to the right by its top five bits. -/
def spreadWord (state : UInt64) : UInt32 :=
  let folded := (((state >>> 18) ^^^ state) >>> 27).toUInt32
  let count := (state >>> 59).toUInt32
  (folded >>> count) ||| (folded <<< ((32 - count) % 32))

/-- The first words that a seed spreads into. -/
def spreadWords : Nat → UInt64 → List UInt32
  | 0, _ => []
  | n + 1, state => spreadWord (spreadStep state) :: spreadWords n (spreadStep state)

def StreamKey.ofSeed (seed : UInt64) : StreamKey :=
  match spreadWords 8 seed with
  | [a, b, c, d, e, f, g, h] => ⟨⟨a, b, c, d⟩, ⟨e, f, g, h⟩⟩
  | _ => default

/-- The block of a key at a count. -/
def StreamKey.block (key : StreamKey) (count : UInt64) : Block :=
  Block.mixed
    ⟨⟨0x61707865, 0x3320646E, 0x79622D32, 0x6B206574⟩, key.low, key.high,
      ⟨count.toUInt32, (count >>> 32).toUInt32, 0, 0⟩⟩

/-- Two words, the lower half first, as one draw. -/
def joinWords (low high : UInt32) : UInt64 := low.toUInt64 + (high.toUInt64 <<< 32)

/-- The draw at a position of the stream. -/
def StreamKey.draw (key : StreamKey) (position : Nat) : UInt64 :=
  let words := (key.block (UInt64.ofNat (position / 8))).words
  let first := 2 * (position % 8)
  joinWords (words.getD first 0) (words.getD (first + 1) 0)

end NumberedMelody.Random
