/-
  NumberedMelody/Proofs/Grammar/WellFormed.lean
  =============================================
  **Well-formed trees.**  Evaluation relies on more than that nodes can stand in
  a text: that an operator has an operand and a rhythm has lists, that bounds are
  in order, that a count can count.  What a node asks of its own parts and of the
  nodes directly inside it is said once for each kind of node (`WellFormed`), and
  so is where a kind of node may stand: numbers in their own right are counts,
  and expressions stand in blocks.  Each rule of the grammar keeps to it, and so
  does every node of a pattern at any depth (`patterns_wellFormed`).
-/
import NumberedMelody.Proofs.Evaluation.Invariant
import NumberedMelody.Proofs.Grammar.ListOperations

namespace NumberedMelody

/-! ### What is asked of a node -/

/-- Marks name neither a key nor a scale. -/
structure Overrides.Keyless (o : Overrides) : Prop where
  key : o.key = none
  scale : o.scale = none

theorem Overrides.keyless_ofDuration (duration : Option Float) : (ofDuration duration).Keyless := ⟨rfl, rfl⟩

/-- A tone of which nothing is resolved, on a degree of one digit, ten or eleven. -/
structure Pitch.WellFormed (p : Pitch) : Prop where
  written : p.Written
  keyless : p.overrides.Keyless
  low : -9 ≤ p.degree
  high : p.degree ≤ 11

/-- Two such tones or more. -/
structure Chord.WellFormed (c : Chord) : Prop where
  two : 2 ≤ c.tones.length
  tones : ∀ tone ∈ c.tones, tone.WellFormed
  keyless : c.overrides.Keyless
  duration : c.duration = none

/-- A pitch, a chord or a rest; samples, functions and layers are not written. -/
def Event.WellFormed : Event → Prop
  | .pitch p => p.WellFormed
  | .chord c => c.WellFormed
  | .rest r => r.overrides.Keyless ∧ r.duration = none
  | _ => False

namespace Node

/-- A node that can stand among items: neither a number in its own right nor an
    expression. -/
def isItem : Node → Bool
  | .integer _ _ => false
  | .expression _ _ _ => false
  | _ => true

/-- A node that can stand in a block: an expression, or blanks between two of them. -/
def isBlockPart : Node → Bool
  | .blank _ => true
  | .expression _ _ _ => true
  | _ => false

/-- A node that can count a repeat. -/
def isCount : Node → Bool
  | .integer _ _ => true
  | .randomInteger _ _ _ _ => true
  | .cycle _ _ _ => true
  | _ => false

end Node

/-- An expression in place of an operator. -/
def Operation.isMap {ν : Type} : Operation ν → Bool
  | .binary _ _ => false
  | .map _ => true

/-- An operation has an operand unless it is an expression, and the operand is an item. -/
structure Operation.WellFormed (step : Operation Node) : Prop where
  operand : step.right?.isSome = !step.isMap
  item : ∀ right ∈ step.right?, right.isItem = true

namespace Node

/-- What a node asks of its parts and of the nodes directly inside it.  A numeral
    keeps no chord yet. -/
def WellFormed : Node → Prop
  | .blank _ => True
  | .bar _ => True
  | .change _ _ => True
  | .event e => e.WellFormed
  | .numeral k => k.numeral.Legible ∧ k.numeral.overrides.Keyless ∧ k.kept = none
  | .randomPitch _ overrides => overrides.Keyless
  | .randomInteger _ overrides low high => overrides.Keyless ∧ low ≤ high
  | .integer _ _ => True
  | .range _ overrides _ _ => overrides.Keyless
  | .expression _ overrides _ => overrides.Keyless
  | .sequence _ overrides true values => overrides.Keyless ∧ ∀ value ∈ values, value.isItem = true
  | .sequence _ overrides false values => overrides.Keyless ∧ ∀ value ∈ values, value.isBlockPart = true
  | .cycle _ values visits => visits = 0 ∧ ∀ value ∈ values, value.isItem = true ∧ value.isBlank = false
  | .subdivision _ overrides values => overrides.Keyless ∧ ∀ value ∈ values, value.isItem = true
  | .repetition _ _ values count => (∀ value ∈ values, value.isItem = true) ∧ count.isCount = true
  | .operations _ left steps => left.isList = true ∧ steps ≠ [] ∧ ∀ step ∈ steps, step.WellFormed
  | .euclid _ _ _ _ onset offset => onset.isList = true ∧ ∀ node ∈ offset, node.isList = true
  | .assignment _ name _ value => IsName name ∧ value.isItem = true ∧ value.isValue = true
  | .variable _ name => IsName name
  | .together _ names => 2 ≤ names.length ∧ ∀ name ∈ names, IsName name

/-- A well-formed tree, at any depth, that can stand among items. -/
abbrev AsItem (node : Node) : Prop := node.isItem = true ∧ node.Everywhere WellFormed

/-- A well-formed tree that can stand in a block. -/
abbrev AsBlockPart (node : Node) : Prop := node.isBlockPart = true ∧ node.Everywhere WellFormed

/-- A well-formed tree that can count. -/
abbrev AsCount (node : Node) : Prop := node.isCount = true ∧ node.Everywhere WellFormed

/-- A well-formed list. -/
abbrev AsList (node : Node) : Prop := node.isList = true ∧ node.Everywhere WellFormed

theorem isItem_of_isList {node : Node} (h : node.isList = true) : node.isItem = true := by
  obtain ⟨text, overrides, values, rfl⟩ := eq_sequence_of_isList h
  rfl

end Node

open Node (AsItem AsBlockPart AsCount AsList)

/-! ### More of what a reader can recognise -/

namespace Reader.Yields

variable {α β : Type} {P : α → Prop} {Q : β → Prop} {p : Reader α}

theorem mapSome_of {f : α → Option β} (h : Yields P p) (hf : ∀ a b, P a → f a = some b → Q b) :
    Yields Q (Reader.mapSome f p) := by
  intro text b rest hread
  obtain ⟨a, hp, hb⟩ := mapSome_eq_some.mp hread
  exact hf a b (h text a rest hp) hb

theorem satisfy (test : Char → Bool) : Yields (fun c => test c = true) (Reader.satisfy test) :=
  fun _ _ _ hread => (satisfy_eq_some.mp hread).2

theorem char (c : Char) : Yields (fun d => d = c) (Reader.char c) := fun _ _ _ hread => (char_eq_some.mp hread).2

theorem many1_ne_nil : Yields (fun all => all ≠ []) (Reader.many1 p) :=
  after fun _ => after fun _ => pure (List.cons_ne_nil _ _)

theorem and {P' : α → Prop} (h : Yields P p) (h' : Yields P' p) : Yields (fun a => P a ∧ P' a) p :=
  fun text a rest hread => ⟨h text a rest hread, h' text a rest hread⟩

end Reader.Yields

namespace Grammar

open Reader

/-! ### Tones -/

theorem digitsValue_digit_le {c : Char} (h : c.isDigit = true) : Decimal.digitsValue [c] ≤ 9 := by
  have hc : c.toNat ≤ 57 := by
    simp only [Char.isDigit, Bool.and_eq_true, decide_eq_true_eq] at h
    exact h.2
  show 0 * 10 + (c.toNat - 48) ≤ 9
  omega

theorem sign_digit {c : Char} (h : c.isDigit = true) : Decimal.sign [c] = (false, [c]) := by
  unfold Decimal.sign
  split
  · next hc =>
    obtain ⟨rfl, -⟩ := List.cons.inj hc
    cases h
  · next hc =>
    obtain ⟨rfl, -⟩ := List.cons.inj hc
    cases h
  · rfl

/-- A digit with or without a minus in front of it. -/
theorem readInt32?_digit {minus : Option Char} {c : Char} {n : Int} (hminus : ∀ m ∈ minus, m = '-')
    (hc : c.isDigit = true) (h : Decimal.readInt32? (minus.toList ++ [c]) = some n) : -9 ≤ n ∧ n ≤ 11 := by
  have hvalue := digitsValue_digit_le hc
  rcases minus with _ | m
  · simp only [Option.toList_none, List.nil_append, Decimal.readInt32?, Decimal.readInteger?, sign_digit hc] at h
    grind
  · obtain rfl := hminus m rfl
    simp only [Option.toList_some, List.cons_append, List.nil_append, Decimal.readInt32?, Decimal.readInteger?,
      Decimal.sign] at h
    grind

theorem degree_range : Yields (fun n => -9 ≤ n ∧ n ≤ 11) degree := by
  refine .or ?_ <| .or (.map_any fun _ => by decide) <| .or (.map_any fun _ => by decide) .nothing
  refine .mapSome_of (P := fun text => ∃ minus c, (∀ m ∈ minus, m = '-') ∧ c.isDigit = true ∧
    text = Option.toList minus ++ [c]) ?_ ?_
  · exact .bind (.optional (.char '-')) fun minus hminus => .bind (.satisfy _) fun c hc => .pure ⟨minus, c, hminus, hc, rfl⟩
  · rintro text n ⟨minus, c, hminus, hc, rfl⟩ hread
    exact readInt32?_digit hminus hc hread

theorem marks_keyless : Yields Overrides.Keyless marks := by
  have hfold : ∀ (all : List Mark) (overrides : Overrides), overrides.Keyless →
      (all.foldl Mark.addTo overrides).Keyless := by
    intro all
    induction all with
    | nil => exact fun _ h => h
    | cons mark more ih =>
      intro overrides h
      refine ih _ ?_
      cases mark <;> exact ⟨h.key, h.scale⟩
  exact .map_any fun all => hfold all {} ⟨rfl, rfl⟩

theorem tone_wellFormed : Yields Pitch.WellFormed tone := by
  refine .bind_consumed (P := fun taken => taken.1.Keyless ∧ -9 ≤ taken.2 ∧ taken.2 ≤ 11)
    (.bind marks_keyless fun _ hmarks => .bind degree_range fun _ hdegree => .pure ⟨hmarks, hdegree⟩) ?_
  rintro text ⟨overrides, degree⟩ ⟨hmarks, hlow, hhigh⟩
  exact .pure ⟨rfl, hmarks, hlow, hhigh⟩

/-! ### Items without items inside -/

theorem blank_wellFormed : Yields AsItem blank := .map_any fun _ => ⟨rfl, .leaf trivial rfl⟩

theorem bar_wellFormed : Yields AsItem bar := .map_any fun _ => ⟨rfl, .leaf trivial rfl⟩

theorem control_wellFormed : Yields AsItem control := .after fun _ => .pure ⟨rfl, .leaf trivial rfl⟩

theorem rest_wellFormed : Yields AsItem rest :=
  .after fun _ => .pure ⟨rfl, .leaf ⟨Overrides.keyless_ofDuration _, rfl⟩ rfl⟩

theorem randomPitch_wellFormed : Yields AsItem randomPitch :=
  .bind_consumed (.bind marks_keyless fun _ hmarks => .after fun _ => .pure hmarks)
    fun _ _ hmarks => .pure ⟨rfl, .leaf hmarks rfl⟩

/-- The bounds come in any order and are put in order. -/
theorem randomInteger_wellFormed :
    Yields (fun node => AsItem node ∧ node.isCount = true) randomInteger := by
  refine .bind_consumed (P := fun taken => taken.1.Keyless)
    (.bind marks_keyless fun _ hmarks => .after fun _ => .pure hmarks) ?_
  rintro text ⟨overrides, a, b⟩ hmarks
  have hordered : min a b ≤ max a b := Int.le_trans (Int.min_le_left a b) (Int.le_max_left a b)
  exact .pure ⟨⟨rfl, .leaf ⟨hmarks, hordered⟩ rfl⟩, rfl⟩

theorem range_wellFormed : Yields AsItem range :=
  .bind_consumed (P := fun taken => taken.1.Keyless)
    (.bind marks_keyless fun _ hmarks => .after fun _ => .after fun _ => .after fun _ => .pure hmarks)
    fun _ _ hmarks => .pure ⟨rfl, .leaf hmarks rfl⟩

theorem numeral_wellFormed : Yields AsItem numeral := by
  refine .bind_consumed (P := fun taken => taken.2.1.toList ≠ [] ∧ ∀ c ∈ taken.2.1.toList, c ∈ "iv".toList)
    (.after fun _ => .bind (symbols_yields "iv") fun taken htaken => .after fun _ => .after fun _ => .pure htaken) ?_
  rintro text ⟨duration, symbols, chordName, inversions⟩ ⟨hsome, hall⟩
  refine .pure ⟨rfl, .leaf ⟨⟨hsome, ?_⟩, Overrides.keyless_ofDuration _, rfl⟩ rfl⟩
  intro c hc
  simpa using hall c hc

theorem expressionItem_wellFormed : Yields AsBlockPart expressionItem :=
  .after fun _ => .pure ⟨rfl, .leaf (Overrides.keyless_ofDuration _) rfl⟩

theorem variableUse_wellFormed : Yields AsItem variableUse :=
  .map (variableName_yields.imp fun _ hname => ⟨rfl, .leaf hname rfl⟩)

theorem together_wellFormed : Yields AsItem together := by
  refine .bind_consumed (P := fun taken => taken.2 ≠ [] ∧ ∀ c ∈ taken.1 :: taken.2, IsName c.toString)
    (.bind variableName_yields fun first hfirst => .bind (.and .many1_ne_nil variableName_yields.many1) ?_) ?_
  · rintro more ⟨hsome, hmore⟩
    exact .pure ⟨hsome, List.forall_mem_cons.mpr ⟨hfirst, hmore⟩⟩
  rintro text ⟨first, more⟩ ⟨hsome, hnames⟩
  refine .pure ⟨rfl, .leaf ⟨?_, List.forall_mem_map.mpr hnames⟩ rfl⟩
  have hmore : 1 ≤ more.length := List.length_pos_iff.mpr hsome
  simp only [List.map_cons, List.length_cons, List.length_map]
  omega

/-- A duration in front adds to the marks of the tone, and its text to the text. -/
theorem pitch_wellFormed : Yields AsItem pitch := by
  refine .bind_consumed (P := fun taken => taken.2.WellFormed)
    (.after fun _ => .bind tone_wellFormed fun _ htone => .pure htone) ?_
  rintro text ⟨duration, tone⟩ ⟨hwritten, hkeyless, hlow, hhigh⟩
  refine .pure ⟨rfl, .leaf (show Pitch.WellFormed _ from ⟨?_, ⟨hkeyless.key, hkeyless.scale⟩, hlow, hhigh⟩) rfl⟩
  show ({ tone with text, overrides := _ } : Pitch).Written
  rw [show tone = _ from hwritten]
  rfl

theorem chord_wellFormed : Yields AsItem chord := by
  have htones : Yields (fun (taken : Option Float × List Pitch × Option Int) =>
      2 ≤ taken.2.1.length ∧ ∀ tone ∈ taken.2.1, tone.WellFormed) (do
        let duration ← optional durationAhead
        let first ← tone
        let others ← many1 tone
        let inversions ← optional inversion
        return (duration, first :: others, inversions)) := by
    refine .after fun _ => .bind tone_wellFormed fun first hfirst =>
      .bind (.and .many1_ne_nil tone_wellFormed.many1) fun others hothers => .after fun _ => .pure ⟨?_, ?_⟩
    · have hmore : 1 ≤ others.length := List.length_pos_iff.mpr hothers.1
      exact Nat.succ_le_succ hmore
    · exact List.forall_mem_cons.mpr ⟨hfirst, hothers.2⟩
  refine .bind_consumed htones ?_
  rintro text ⟨duration, tones, inversions⟩ ⟨htwo, htones⟩
  have hchord : Chord.WellFormed { text, overrides := .ofDuration duration, tones, inversions } :=
    ⟨htwo, htones, Overrides.keyless_ofDuration _, rfl⟩
  exact .pure ⟨rfl, .leaf hchord rfl⟩

theorem block_wellFormed : Yields AsItem block := by
  have hblank : Yields AsBlockPart blank := .map_any fun _ => ⟨rfl, .leaf trivial rfl⟩
  refine .bind_consumed (.between (.many (.or hblank (.or expressionItem_wellFormed .nothing)))) ?_
  intro text values hvalues
  exact .pure ⟨rfl, .intro ⟨⟨rfl, rfl⟩, fun value hvalue => (hvalues value hvalue).1⟩
    fun value hvalue => (hvalues value hvalue).2⟩

/-! ### Items with items inside -/

section Rules

variable {item : Reader Node}

/-- Marks and the items between two brackets. -/
theorem marked_wellFormed (h : Yields AsItem item) (opening closing : Char) :
    Yields (fun taken => taken.1.Keyless ∧ ∀ value ∈ taken.2, AsItem value) (do
      let overrides ← marks
      let values ← between opening closing (many item)
      return (overrides, values)) :=
  .bind marks_keyless fun _ hmarks => .bind h.many.between fun _ hvalues => .pure ⟨hmarks, hvalues⟩

theorem list_wellFormed (h : Yields AsItem item) : Yields AsList (list item) := by
  refine .bind_consumed (marked_wellFormed h '(' ')') ?_
  rintro text ⟨overrides, values⟩ ⟨hmarks, hvalues⟩
  exact .pure ⟨rfl, .intro ⟨hmarks, fun value hvalue => (hvalues value hvalue).1⟩
    fun value hvalue => (hvalues value hvalue).2⟩

theorem list_asItem (h : Yields AsItem item) : Yields AsItem (list item) :=
  (list_wellFormed h).imp fun _ hlist => ⟨Node.isItem_of_isList hlist.1, hlist.2⟩

theorem subdivision_wellFormed (h : Yields AsItem item) : Yields AsItem (subdivision item) := by
  refine .bind_consumed (marked_wellFormed h '[' ']') ?_
  rintro text ⟨overrides, values⟩ ⟨hmarks, hvalues⟩
  exact .pure ⟨rfl, .intro ⟨hmarks, fun value hvalue => (hvalues value hvalue).1⟩
    fun value hvalue => (hvalues value hvalue).2⟩

/-- The blanks between the values of a cycle are left out. -/
theorem cycle_wellFormed (h : Yields AsItem item) :
    Yields (fun node => AsItem node ∧ node.isCount = true) (cycle item) := by
  refine .bind_consumed h.many.between ?_
  intro text values hvalues
  refine .pure ⟨⟨rfl, .intro ⟨rfl, ?_⟩ ?_⟩, rfl⟩
  · intro value hvalue
    obtain ⟨hmem, hblank⟩ := List.mem_filter.mp hvalue
    exact ⟨(hvalues value hmem).1, by simpa using hblank⟩
  · intro value hvalue
    exact (hvalues value (List.mem_filter.mp hvalue).1).2

theorem operand_wellFormed (h : Yields AsItem item) : Yields AsItem (operand item) :=
  .or (randomInteger_wellFormed.imp fun _ => And.left) <| .or (list_asItem h) <| .or (subdivision_wellFormed h) <|
    .or ((cycle_wellFormed h).imp fun _ => And.left) <| .or range_wellFormed <| .or randomPitch_wellFormed <|
    .or chord_wellFormed <| .or pitch_wellFormed .nothing

/-- An operation and its operand are well-formed. -/
def StepWellFormed (step : Operation Node) : Prop :=
  step.WellFormed ∧ ∀ right ∈ step.right?, right.Everywhere Node.WellFormed

theorem stepWellFormed_binary (op : ListOperator) {right : Node} (h : AsItem right) :
    StepWellFormed (.binary op (some right)) := by
  have hright : ∀ other ∈ some right, AsItem other := by
    rintro other ⟨⟩
    exact h
  exact ⟨⟨rfl, fun other hother => (hright other hother).1⟩, fun other hother => (hright other hother).2⟩

theorem operation_wellFormed (h : Yields AsItem item) : Yields StepWellFormed (operation item) := by
  refine .or ?_ <| .or ?_ <| .or ?_ .nothing
  · exact .after fun _ => .bind (operand_wellFormed h) fun _ hright => .pure (stepWellFormed_binary _ hright)
  · exact .map_any fun expr => ⟨⟨rfl, nofun⟩, nofun⟩
  · exact .after fun _ => .bind (operand_wellFormed h) fun _ hright => .pure (stepWellFormed_binary _ hright)

def TailWellFormed : ListTail → Prop
  | .rhythm _ _ _ offset => ∀ node ∈ offset, AsList node
  | .steps operations => ∀ step ∈ operations, StepWellFormed step

theorem listTail_wellFormed (h : Yields AsItem item) : Yields TailWellFormed (listTail item) := by
  refine .or ?_ <| .or ?_ .nothing
  · exact .after fun _ => .bind (list_wellFormed h).optional fun _ hoffset => .pure hoffset
  · exact .map (operation_wellFormed h).many

/-- A list without a tail is itself the item, so that there is no list operation
    without an operation. -/
theorem listLike_wellFormed (h : Yields AsItem item) : Yields AsItem (listLike item) := by
  refine .bind_consumed (P := fun taken => AsList taken.1 ∧ TailWellFormed taken.2)
    (.bind (list_wellFormed h) fun _ hleft => .bind (listTail_wellFormed h) fun _ htail => .pure ⟨hleft, htail⟩) ?_
  rintro text ⟨left, tail⟩ ⟨hleft, htail⟩
  refine .pure ?_
  split
  · next offset =>
    refine ⟨rfl, .intro ⟨hleft.1, fun node hnode => (htail node hnode).1⟩ ?_⟩
    intro node hnode
    rcases List.mem_cons.mp hnode with rfl | hnode
    · exact hleft.2
    · exact (htail node (Option.mem_toList.mp hnode)).2
  · exact ⟨Node.isItem_of_isList hleft.1, hleft.2⟩
  · next operations hsome =>
    refine ⟨rfl, .intro ⟨hleft.1, hsome, ?_⟩ ?_⟩
    · exact fun step hstep => (htail step hstep).1
    · intro node hnode
      rcases List.mem_cons.mp hnode with rfl | hnode
      · exact hleft.2
      · obtain ⟨step, hstep, hright⟩ := List.mem_filterMap.mp hnode
        exact (htail step hstep).2 node hright

theorem count_wellFormed (h : Yields AsItem item) : Yields AsCount (count item) :=
  .or (randomInteger_wellFormed.imp fun _ hnode => ⟨hnode.2, hnode.1.2⟩) <|
    .or ((cycle_wellFormed h).imp fun _ hnode => ⟨hnode.2, hnode.1.2⟩) <|
    .or (.map_any fun _ => ⟨rfl, .leaf trivial rfl⟩) .nothing

theorem repetition_wellFormed (h : Yields AsItem item) (opening closing : Char) (replayed : Bool) :
    Yields AsItem (repetition item opening closing replayed) := by
  refine .bind_consumed (P := fun taken => (∀ value ∈ taken.1, AsItem value) ∧ ∀ node ∈ taken.2, AsCount node)
    (.after fun _ => .bind h.many fun _ hvalues => .after fun _ =>
      .bind (count_wellFormed h).optional fun _ hcount => .after fun _ => .pure ⟨hvalues, hcount⟩) ?_
  rintro text ⟨values, counted⟩ ⟨hvalues, hcount⟩
  have hcounted : AsCount (counted.getD twice) := by
    cases counted with
    | none => exact ⟨rfl, .leaf trivial rfl⟩
    | some counted => exact hcount counted rfl
  refine .pure ⟨rfl, .intro ⟨fun value hvalue => (hvalues value hvalue).1, hcounted.1⟩ ?_⟩
  intro node hnode
  rcases List.mem_cons.mp hnode with rfl | hnode
  · exact hcounted.2
  · exact (hvalues node hnode).2

theorem assignment_wellFormed (h : Yields AsItem item) : Yields AsItem (assignment item) := by
  refine .bind_consumed (P := fun taken => IsName taken.1.toString ∧ AsItem taken.2.2 ∧ taken.2.2.isValue = true)
    (.bind variableName_yields fun _ hname => .after fun _ => .bind h.verify fun _ hvalue => .pure ⟨hname, hvalue⟩) ?_
  rintro text ⟨name, sign, value⟩ ⟨hname, hvalue, hisValue⟩
  refine .pure ⟨rfl, .intro ⟨hname, hvalue.1, hisValue⟩ ?_⟩
  intro node hnode
  obtain rfl := List.mem_singleton.mp hnode
  exact hvalue.2

theorem itemOver_wellFormed (h : Yields AsItem item) : Yields AsItem (itemOver item) :=
  .or blank_wellFormed <| .or bar_wellFormed <| .or (assignment_wellFormed h) <| .or together_wellFormed <|
    .or variableUse_wellFormed <| .or (repetition_wellFormed h '[' ']' true) <|
    .or (repetition_wellFormed h '(' ')' false) <| .or (randomInteger_wellFormed.imp fun _ => And.left) <|
    .or (listLike_wellFormed h) <| .or (subdivision_wellFormed h) <| .or control_wellFormed <| .or block_wellFormed <|
    .or range_wellFormed <| .or numeral_wellFormed <| .or rest_wellFormed <| .or randomPitch_wellFormed <|
    .or chord_wellFormed <| .or pitch_wellFormed <| .or ((cycle_wellFormed h).imp fun _ => And.left) .nothing

end Rules

theorem itemTo_wellFormed (depth : Nat) : Yields AsItem (itemTo depth) := by
  induction depth with
  | zero => exact .nothing
  | succ depth ih => exact itemOver_wellFormed ih

theorem item_wellFormed : Yields AsItem item := fun text => itemTo_wellFormed (text.length + 1) text

theorem items_wellFormed : Yields (fun nodes => ∀ node ∈ nodes, AsItem node) items := item_wellFormed.many

end Grammar

/-- **What is read is well-formed and unresolved**, at any depth.  A number in its
    own right stands nowhere but as a count and an expression nowhere but in a
    block, so neither is a node of the pattern itself. -/
theorem patterns_wellFormed {text : String} {nodes : List Node} (h : readPattern text = .ok nodes) :
    ∀ node ∈ nodes, node.isItem = true ∧ node.Everywhere Node.WellFormed :=
  Grammar.items_wellFormed _ nodes [] (readPattern_eq_ok.mp h)

/-- Lists with operations and a rhythm, counts of every kind, a block and names. -/
theorem nested_groups_wellFormed :
    ∃ nodes, readPattern "A~q(0 -9T)+(1 2)\x7bx*2\x7d [:<1 2> (5,2):(4,1)] (1)<3,8>(r) iv%1 AB" = .ok nodes ∧
      nodes.length = 9 ∧ ∀ node ∈ nodes, node.isItem = true ∧ node.Everywhere Node.WellFormed := by
  have hcheck : (readPattern "A~q(0 -9T)+(1 2)\x7bx*2\x7d [:<1 2> (5,2):(4,1)] (1)<3,8>(r) iv%1 AB").toOption.any
      (fun nodes => nodes.length = 9) = true := by decide +kernel
  obtain ⟨nodes, hread, hlength⟩ := eq_ok_of_any hcheck
  exact ⟨nodes, hread, of_decide_eq_true hlength, patterns_wellFormed hread⟩

end NumberedMelody
