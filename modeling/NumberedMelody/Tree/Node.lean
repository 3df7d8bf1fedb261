/-
  NumberedMelody/Tree/Node.lean
  =============================
  **The tree of a pattern.**  A pattern is a list of nodes.  Events are nodes
  already; the others are expanded when the pattern is evaluated.  Every node
  keeps the text it was read from, so the texts of the top-level nodes join to
  the text of the pattern.  Evaluation changes two things in a tree: a cycle
  counts its visits, and a numeral keeps the last chord that it came to.
-/
import NumberedMelody.Expr
import NumberedMelody.Tree.Numeral

namespace NumberedMelody

/-- What a control item does to the ambient options. -/
inductive Change where
  /-- Replace the duration. -/
  | duration (value : Float)
  /-- Replace the octave. -/
  | octave (value : Int)
  /-- Add to the octave. -/
  | octaveAdd (by_ : Int)
  deriving Repr, BEq, Inhabited

/-- A step of a list operation, over trees `ν`. -/
inductive Operation (ν : Type) where
  /-- An operator and its right operand; without an operand the list is empty. -/
  | binary (op : ListOperator) (right : Option ν)
  /-- Every degree through an expression. -/
  | map (expr : Expr)
  deriving Repr, Inhabited

/-- An item of a pattern. -/
inductive Node where
  /-- Blanks between items. -/
  | blank (text : String)
  /-- A bar line: back to the options that the pattern started with. -/
  | bar (text : String)
  /-- A control item. -/
  | change (text : String) (change : Change)
  /-- Something that is played as it is. -/
  | event (e : Event)
  | numeral (k : KeptNumeral)
  /-- A random degree of the scale. -/
  | randomPitch (text : String) (overrides : Overrides)
  /-- A random degree between two bounds. -/
  | randomInteger (text : String) (overrides : Overrides) (low high : Int)
  /-- A number in its own right. -/
  | integer (text : String) (value : Int)
  /-- All degrees from one to another, up or down. -/
  | range (text : String) (overrides : Overrides) (first last : Int)
  | expression (text : String) (overrides : Overrides) (expr : Expr)
  /-- Items in order; a list in round brackets or a block in braces. -/
  | sequence (text : String) (overrides : Overrides) (isList : Bool) (values : List Node)
  /-- One value per visit. -/
  | cycle (text : String) (values : List Node) (visits : Nat)
  /-- Items that share one duration. -/
  | subdivision (text : String) (overrides : Overrides) (values : List Node)
  /-- Items over and over, with the same random draws on every pass or with new ones. -/
  | repetition (text : String) (replayed : Bool) (values : List Node) (count : Node)
  /-- A list and operations on it, from left to right. -/
  | operations (text : String) (left : Node) (steps : List (Operation Node))
  /-- Two lists dealt out over the onsets of a euclidean rhythm and over its other steps. -/
  | euclid (text : String) (pulses length : Nat) (rotate : Int) (onset : Node) (offset : Option Node)
  /-- A value given to a variable; an eager one is evaluated at once. -/
  | assignment (text : String) (name : String) (eager : Bool) (value : Node)
  | variable (text : String) (name : String)
  /-- Variables that sound together. -/
  | together (text : String) (names : List String)
  deriving Repr, Inhabited

namespace Node

/-- The text that the node was read from. -/
def text : Node → String
  | .blank text => text
  | .bar text => text
  | .change text _ => text
  | .event e => e.text
  | .numeral k => k.numeral.text
  | .randomPitch text _ => text
  | .randomInteger text _ _ _ => text
  | .integer text _ => text
  | .range text _ _ _ => text
  | .expression text _ _ => text
  | .sequence text _ _ _ => text
  | .cycle text _ _ => text
  | .subdivision text _ _ => text
  | .repetition text _ _ _ => text
  | .operations text _ _ => text
  | .euclid text _ _ _ _ _ => text
  | .assignment text _ _ _ => text
  | .variable text _ => text
  | .together text _ => text

def isBlank : Node → Bool
  | .blank _ => true
  | _ => false

/-- A node that can stand for a value: neither blanks nor a bar line. -/
def isValue : Node → Bool
  | .blank _ => false
  | .bar _ => false
  | _ => true

/-- The elements of a list or block, or the node itself. -/
def elements : Node → List Node
  | .sequence _ _ _ values => values.filter (!·.isBlank)
  | other => [other]

/-- The overrides of a list or block; none for other nodes. -/
def listOverrides : Node → Overrides
  | .sequence _ overrides _ _ => overrides
  | _ => {}

/-- A cycle over the values that are no blanks. -/
def ofCycle (text : String) (values : List Node) (visits : Nat) : Node :=
  .cycle text (values.filter (!·.isBlank)) visits

/-- A random integer between bounds in either order. -/
def ofBounds (text : String) (overrides : Overrides) (a b : Int) : Node :=
  .randomInteger text overrides (min a b) (max a b)

/-! ### Depth -/

mutual

/-- Levels of nesting; one for a node without inner nodes. -/
def depth : Node → Nat
  | .sequence _ _ _ values => depthAll values + 1
  | .cycle _ values _ => depthAll values + 1
  | .subdivision _ _ values => depthAll values + 1
  | .repetition _ _ values count => max (depthAll values) (depth count) + 1
  | .operations _ left steps => max (depth left) (depthSteps steps) + 1
  | .euclid _ _ _ _ onset offset => max (depth onset) (depthOption offset) + 1
  | .assignment _ _ _ value => depth value + 1
  | _ => 1

/-- The most levels in a list of nodes. -/
def depthAll : List Node → Nat
  | [] => 0
  | node :: more => max (depth node) (depthAll more)

/-- The levels of a node, if there is one. -/
def depthOption : Option Node → Nat
  | none => 0
  | some node => depth node

/-- The levels of an operand, if there is one. -/
def depthStep : Operation Node → Nat
  | .binary _ right => depthOption right
  | .map _ => 0

/-- The most levels in the operands of a list operation. -/
def depthSteps : List (Operation Node) → Nat
  | [] => 0
  | step :: more => max (depthStep step) (depthSteps more)

end

end Node

/-- The integers from one to another, in either direction, both included. -/
def integersBetween (first last : Int) : List Int :=
  if first ≤ last then (List.range (last - first + 1).toNat).map fun (i : Nat) => first + i
  else (List.range (first - last + 1).toNat).map fun (i : Nat) => first - i

end NumberedMelody
