/-
  NumberedMelody/Proofs/Grammar/Written.lean
  ==========================================
  **What stands in a text.**  Nothing is resolved there: the events are pitches
  with a degree and overrides and nothing else, chords of two such pitches or
  more, and rests; there is no way to write a sample, a function, or layers.
  No cycle has been visited, only values are assigned, and no variable is used
  as a count, as an operand or as a list of a rhythm.  A variable is named with
  one letter, and a numeral has symbols, so that it has a value.  Degrees and
  bounds fit into 32 bits, and marks replace no scale.  Only the texts of random
  degrees ask for one.  What holds of everything
  that the parts of a reader recognise passes to the whole
  (`Yields`), and so through the grammar, rule by rule, to every node of a
  pattern at any depth (`readPattern_readable`).
-/
import NumberedMelody.Proofs.Grammar.RandomTexts
import NumberedMelody.Proofs.Grammar.Spelling
import NumberedMelody.Evaluation.ListArithmetic
import NumberedMelody.Harmony.RomanNumeral
import NumberedMelody.Proofs.Tree.Likeness

namespace NumberedMelody

/-! ### Events as they are written -/

/-- A pitch of which nothing is set but its degree and its overrides. -/
def Pitch.Written (p : Pitch) : Prop := p = { text := p.text, overrides := p.overrides, degree := p.degree }

/-- An event that can stand in a text. -/
def Event.Written : Event → Prop
  | .pitch p => p.Written
  | .chord c => c.tones ≠ [] ∧ ∀ tone ∈ c.tones, tone.Written
  | .rest _ => True
  | _ => False

namespace Node

/-- An event node can stand in a text. -/
def Written : Node → Prop
  | .event e => e.Written
  | _ => True

/-- Every event node can stand in a text, at any depth. -/
abbrev AsWritten : Node → Prop := Everywhere Written

/-- The node stands for a variable. -/
def isUse : Node → Bool
  | .variable _ _ => true
  | _ => false

/-- A node that can stand in a text. -/
def Textual : Node → Prop
  | .event e => e.Written
  | .cycle _ _ visits => visits = 0
  | .repetition _ _ _ count => count.isUse = false
  | .operations _ left steps => left.isUse = false ∧ ∀ step ∈ steps, ∀ right ∈ step.right?, right.isUse = false
  | .euclid _ _ _ _ onset offset => onset.isUse = false ∧ ∀ node ∈ offset, node.isUse = false
  | .assignment _ _ _ value => value.isValue = true
  | _ => True

/-- Nodes as they can stand in a text, at any depth. -/
abbrev AsText : Node → Prop := Everywhere Textual

theorem Textual.written {node : Node} (h : node.Textual) : node.Written := by
  cases node with
  | event e => exact h
  | _ => trivial

end Node

/-! ### Names and numerals as they are written -/

/-- A name of a variable that can stand in a text: a capital that is no degree. -/
def IsName (name : String) : Prop := ∃ c : Char, (c.isUpper && c != 'T' && c != 'E') = true ∧ name = c.toString

/-- Symbols that can stand in a text. -/
def RomanNumeral.Legible (r : RomanNumeral) : Prop :=
  r.symbols.toList ≠ [] ∧ ∀ c ∈ r.symbols.toList, c = 'i' ∨ c = 'v'

theorem RomanNumeral.Legible.exists_value {r : RomanNumeral} (h : r.Legible) :
    ∃ value, Harmony.romanValue? r.symbols = some value := by
  obtain ⟨hsymbols, hall⟩ := h
  have hnonempty : r.symbols.isEmpty = false := by
    rw [← Bool.not_eq_true, String.isEmpty_iff]
    intro hempty
    exact hsymbols (by rw [hempty]; rfl)
  have hvalues : ∀ symbols : List Char, (∀ c ∈ symbols, c = 'i' ∨ c = 'v') →
      ∃ values, symbols.mapM Harmony.romanSymbol = some values := by
    intro symbols hsymbols
    induction symbols with
    | nil => exact ⟨[], rfl⟩
    | cons c more ih =>
      obtain ⟨values, hvalues⟩ := ih fun other hother => hsymbols other (List.mem_cons_of_mem _ hother)
      rw [List.mapM_cons, hvalues]
      rcases hsymbols c (List.mem_cons_self ..) with rfl | rfl
      · exact ⟨1 :: values, rfl⟩
      · exact ⟨5 :: values, rfl⟩
  obtain ⟨values, hmapped⟩ := hvalues _ hall
  refine ⟨Harmony.romanTotal values, ?_⟩
  simp [Harmony.romanValue?, hnonempty, hmapped]

namespace Node

/-- The names are letters, and a numeral has symbols. -/
def Legible : Node → Prop
  | .numeral k => k.numeral.Legible
  | .assignment _ name _ _ => IsName name
  | .variable _ name => IsName name
  | .together _ names => ∀ name ∈ names, IsName name
  | _ => True

theorem Legible.isName_of_used {node : Node} (h : node.Legible) : ∀ name ∈ node.used, IsName name := by
  intro name hname
  cases node with
  | «variable» text other =>
    obtain rfl := List.mem_singleton.mp hname
    exact h
  | together text names => exact h name hname
  | _ => cases hname

end Node

/-! ### Degrees as they are written -/

/-- The degrees of the event fit into 32 bits. -/
def Event.Bounded (e : Event) : Prop := ∀ tone ∈ ListArithmetic.tonesOf e, fits32 tone.degree = true

namespace Node

/-- Degrees and bounds fit into 32 bits, and marks replace no scale. -/
def Bounded : Node → Prop
  | .event e => e.Bounded
  | .randomPitch _ overrides => overrides.scale = none
  | .randomInteger _ _ low high => fits32 low = true ∧ fits32 high = true
  | .integer _ value => fits32 value = true
  | .range _ _ first last => fits32 first = true ∧ fits32 last = true
  | .sequence _ overrides _ _ => overrides.scale = none
  | .subdivision _ overrides _ => overrides.scale = none
  | _ => True

/-- The text asks for a random degree where the node is one, and then for the
    same bounds; the texts of other degrees ask for none. -/
def Labelled : Node → Prop
  | .event e => ∀ tone ∈ ListArithmetic.tonesOf e, AsksNone tone.text.toList
  | .randomPitch text _ => AsksAny text.toList
  | .randomInteger text _ low high => ∃ a b, AsksBetween text.toList a b ∧ low = min a b ∧ high = max a b
  | .integer text _ => AsksNone text.toList
  | .expression text _ _ => AsksNone text.toList
  | _ => True

/-- A node that the grammar can yield. -/
structure Readable (node : Node) : Prop where
  textual : node.Textual
  legible : node.Legible
  bounded : node.Bounded
  labelled : node.Labelled

/-- Nodes that the grammar can yield, at any depth. -/
abbrev AsRead : Node → Prop := Everywhere Readable

/-- Nodes that the grammar can yield for an operand. -/
abbrev AsOperand (node : Node) : Prop := node.AsRead ∧ node.isUse = false

end Node

open Node (AsRead AsOperand)

/-! ### What a reader can recognise -/

namespace Reader

/-- Something holds of whatever the reader recognises. -/
def Yields {α : Type} (P : α → Prop) (p : Reader α) : Prop := ∀ text a rest, p text = some (a, rest) → P a

namespace Yields

variable {α β : Type} {P : α → Prop} {Q : β → Prop} {p : Reader α}

theorem pure {a : α} (h : P a) : Yields P (Pure.pure a : Reader α) := by
  intro text b rest hread
  obtain ⟨rfl, -⟩ := pure_eq_some.mp hread
  exact h

theorem imp {P' : α → Prop} (h : Yields P p) (hP : ∀ a, P a → P' a) : Yields P' p :=
  fun text a rest hread => hP a (h text a rest hread)

theorem bind {f : α → Reader β} (h : Yields P p) (hnext : ∀ a, P a → Yields Q (f a)) : Yields Q (p >>= f) := by
  intro text b rest hread
  obtain ⟨a, mid, hp, hf⟩ := bind_eq_some.mp hread
  exact hnext a (h text a mid hp) mid b rest hf

theorem after {f : α → Reader β} (hnext : ∀ a, Yields Q (f a)) : Yields Q (p >>= f) :=
  bind (P := fun _ => True) (fun _ _ _ _ => trivial) fun a _ => hnext a

theorem map {f : α → β} (h : Yields (fun a => Q (f a)) p) : Yields Q (f <$> p) := by
  intro text b rest hread
  obtain ⟨a, hp, rfl⟩ := map_eq_some.mp hread
  exact h text a rest hp

theorem map_any {f : α → β} (h : ∀ a, Q (f a)) : Yields Q (f <$> p) := map fun _ a _ _ => h a

theorem verify {test : α → Bool} (h : Yields P p) : Yields (fun a => P a ∧ test a = true) (Reader.verify test p) := by
  intro text a rest hread
  obtain ⟨hp, htest⟩ := verify_eq_some.mp hread
  exact ⟨h text a rest hp, htest⟩

theorem optional (h : Yields P p) : Yields (fun found => ∀ a ∈ found, P a) (Reader.optional p) := by
  intro text found rest hread a ha
  rcases optional_eq_some.mp hread with ⟨b, hp, rfl⟩ | ⟨-, rfl, -⟩
  · obtain rfl := Option.some.inj ha
    exact h text _ rest hp
  · cases ha

theorem nothing : Yields P (firstOf []) := by
  intro text a rest hread
  cases hread

theorem or {alternatives : List (Reader α)} (h : Yields P p) (hmore : Yields P (firstOf alternatives)) :
    Yields P (firstOf (p :: alternatives)) := by
  intro text a rest hread
  rcases firstOf_cons_eq_some.mp hread with hp | ⟨-, hmore'⟩
  · exact h text a rest hp
  · exact hmore text a rest hmore'

theorem anyOf {alternatives : List (Reader α)} (h : ∀ p ∈ alternatives, Yields P p) : Yields P (firstOf alternatives) := by
  induction alternatives with
  | nil => exact nothing
  | cons p alternatives ih =>
    obtain ⟨hp, hmore⟩ := List.forall_mem_cons.mp h
    exact hp.or (ih hmore)

theorem many (h : Yields P p) : Yields (fun all => ∀ a ∈ all, P a) (Reader.many p) := by
  intro text all rest hread
  refine many_induction (motive := fun _ all _ => ∀ a ∈ all, P a) ?_ ?_ hread
  · intro _ _ a ha
    cases ha
  · intro text first mid more rest hp _ ih a ha
    rcases List.mem_cons.mp ha with rfl | ha
    · exact h text _ mid hp
    · exact ih a ha

theorem many1 (h : Yields P p) : Yields (fun all => ∀ a ∈ all, P a) (Reader.many1 p) :=
  bind h fun first hfirst => bind h.many fun more hmore => pure <| by
    intro a ha
    rcases List.mem_cons.mp ha with rfl | ha
    · exact hfirst
    · exact hmore a ha

theorem mapSome {f : α → Option β} (h : ∀ a b, f a = some b → Q b) : Yields Q (Reader.mapSome f p) := by
  intro text b rest hread
  obtain ⟨a, -, hf⟩ := mapSome_eq_some.mp hread
  exact h a b hf

theorem consumed (h : Yields P p) : Yields (fun taken => P taken.2) (Reader.consumed p) := by
  intro text taken rest hread
  unfold Reader.consumed at hread
  cases hp : p text with
  | none =>
    rw [hp] at hread
    cases hread
  | some found =>
    rw [hp] at hread
    obtain ⟨rfl, -⟩ := Prod.mk.inj (Option.some.inj hread)
    exact h text found.1 found.2 hp

/-- What is related to the text that is taken is related to the text that is kept. -/
theorem taken [Lossless p] {R : List Char → α → Prop} (h : Consumes R p) :
    Yields (fun taken => R taken.1.toList taken.2) (Reader.consumed p) := by
  intro text taken rest hread
  obtain ⟨htext, hp⟩ := consumed_eq_some.mp hread
  obtain ⟨front, hfront, hR⟩ := h text taken.2 rest hp
  rwa [List.append_cancel_right (htext.symm.trans hfront)]

theorem bind_taken [Lossless p] {R : List Char → α → Prop} {next : String × α → Reader β} (h : Consumes R p)
    (hnext : ∀ text a, R text.toList a → Yields Q (next (text, a))) : Yields Q (Reader.consumed p >>= next) :=
  bind (taken h) fun taken htaken => hnext taken.1 taken.2 htaken

/-- What holds of everything that is recognised, whatever is taken for it. -/
theorem consumes [Lossless p] (h : Yields P p) : Consumes (fun _ a => P a) p := by
  intro text a rest hread
  obtain ⟨front, rfl⟩ := Lossless.suffix hread
  exact ⟨front, rfl, h _ a rest hread⟩

theorem bind_consumed {next : String × α → Reader β} (h : Yields P p)
    (hnext : ∀ text a, P a → Yields Q (next (text, a))) : Yields Q (Reader.consumed p >>= next) :=
  bind h.consumed fun taken htaken => hnext taken.1 taken.2 htaken

theorem between {opening closing : Char} (h : Yields P p) : Yields P (Reader.between opening closing p) :=
  after fun _ => bind h fun _ ha => after fun _ => pure ha

end Yields

section Choices

variable {α : Type} {P : α → Prop} {p : Reader α} {before after : List (Reader α)} {text rest : List Char} {a : α}

/-- Where an ordered choice ends with something that the alternatives in front never
    recognise, these have all been passed over. -/
theorem firstOf_append_eq_some (hbefore : ∀ p ∈ before, Yields P p) (ha : ¬P a)
    (h : firstOf (before ++ after) text = some (a, rest)) :
    (∀ p ∈ before, p text = none) ∧ firstOf after text = some (a, rest) := by
  induction before with
  | nil => exact ⟨List.forall_mem_nil _, h⟩
  | cons p before ih =>
    obtain ⟨hp, hmore⟩ := List.forall_mem_cons.mp hbefore
    rcases firstOf_cons_eq_some.mp h with hread | ⟨hnone, h⟩
    · exact absurd (hp text a rest hread) ha
    · obtain ⟨hpassed, hafter⟩ := ih hmore h
      exact ⟨List.forall_mem_cons.mpr ⟨hnone, hpassed⟩, hafter⟩

/-- What only one alternative recognises, it has recognised. -/
theorem firstOf_append_cons_eq_some (hbefore : ∀ p ∈ before, Yields P p) (hafter : ∀ p ∈ after, Yields P p) (ha : ¬P a)
    (h : firstOf (before ++ p :: after) text = some (a, rest)) :
    (∀ p ∈ before, p text = none) ∧ p text = some (a, rest) := by
  obtain ⟨hpassed, h⟩ := firstOf_append_eq_some hbefore ha h
  refine ⟨hpassed, (firstOf_cons_eq_some.mp h).resolve_right ?_⟩
  rintro ⟨-, hlater⟩
  exact ha (Yields.anyOf hafter text a rest hlater)

end Choices

end Reader

namespace Grammar

open Reader

/-! ### Items without items inside -/

theorem fits32_of_readInt32? {text : List Char} {n : Int} (h : Decimal.readInt32? text = some n) :
    fits32 n = true := by
  simp only [Decimal.readInt32?, Decimal.readInteger?] at h
  split at h
  · cases h
  · obtain ⟨⟨hlow, hhigh⟩, h⟩ := Option.ite_none_right_eq_some.mp h
    obtain rfl := Option.some.inj h
    simp only [fits32, decide_eq_true hlow, decide_eq_true hhigh, Bool.and_self]

theorem integer_yields : Yields (fun n => fits32 n = true) integer := .mapSome fun _ _ => fits32_of_readInt32?

theorem degree_yields : Yields (fun n => fits32 n = true) degree :=
  .or (.mapSome fun _ _ => fits32_of_readInt32?) <| .or (.map_any fun _ => rfl) <| .or (.map_any fun _ => rfl) .nothing

theorem marks_yields : Yields (fun overrides => overrides.scale = none) marks := by
  refine .map_any fun all => ?_
  have hfold : ∀ (all : List Mark) (overrides : Overrides), (all.foldl Mark.addTo overrides).scale = overrides.scale := by
    intro all
    induction all with
    | nil => exact fun _ => rfl
    | cons mark more ih =>
      intro overrides
      rw [List.foldl_cons, ih]
      cases mark <;> rfl
  exact hfold all {}

theorem tone_yields :
    Yields (fun tone => tone.Written ∧ fits32 tone.degree = true ∧ AsksNone tone.text.toList) tone := by
  refine .bind_taken (R := fun front taken => fits32 taken.2 = true ∧ IsDefinite front) (.and ?_ Definite.consumes) ?_
  · exact Yields.consumes (.after fun _ => .bind degree_yields fun _ hdegree => .pure hdegree)
  · exact fun _ _ ⟨hdegree, hdefinite⟩ => .pure ⟨rfl, hdegree, hdefinite.asksNone⟩

theorem blank_readable : Yields AsRead blank := .map_any fun _ => .leaf ⟨trivial, trivial, trivial, trivial⟩ rfl

theorem bar_readable : Yields AsRead bar := .map_any fun _ => .leaf ⟨trivial, trivial, trivial, trivial⟩ rfl

theorem control_readable : Yields AsRead control := .after fun _ => .pure (.leaf ⟨trivial, trivial, trivial, trivial⟩ rfl)

theorem rest_readable : Yields AsRead rest := .after fun _ => .pure (.leaf ⟨trivial, trivial, List.forall_mem_nil _, List.forall_mem_nil _⟩ rfl)

theorem randomPitch_readable : Yields AsOperand randomPitch := by
  refine .bind_taken (R := fun front overrides => overrides.scale = none ∧ AsksAny front)
    (.bind marks_yields.consumes fun front _ hmarks => .bind .char fun mark _ hmark => .pure ⟨hmarks, front, ?_⟩) ?_
  · rw [hmark, List.append_nil]
  · exact fun _ _ ⟨hmarks, hasks⟩ => .pure ⟨.leaf ⟨trivial, trivial, hmarks, hasks⟩ rfl, rfl⟩

theorem randomInteger_readable : Yields AsOperand randomInteger := by
  have hgroup : Consumes (fun group (bounds : Int × Int) => ∀ front, AsksBetween (front ++ group) bounds.1 bounds.2)
      (between '(' ')' do
        let a ← integer
        let _ ← char ','
        let b ← integer
        return (a, b)) := by
    refine .between (.bind integer_consumes fun first a hfirst => .bind .char fun comma _ hcomma =>
      .bind integer_consumes fun second b hsecond => .pure fun front => ⟨front, first, second, ?_, hfirst, hsecond⟩)
    simp [hcomma]
  refine .bind_taken (R := fun front taken => AsksBetween front taken.2.1 taken.2.2)
    (.bind .lossless fun front _ _ => .bind hgroup fun group _ hasks => .pure ?_) ?_
  · rw [List.append_nil]
    exact hasks front
  · rintro text ⟨overrides, a, b⟩ hasks
    have ⟨_, first, second, _, hfirst, hsecond⟩ := hasks
    have ha := fits32_of_readInt32? hfirst
    have hb := fits32_of_readInt32? hsecond
    refine .pure ⟨.leaf ⟨trivial, trivial, ?_, a, b, hasks, rfl, rfl⟩ rfl, rfl⟩
    show fits32 (min a b) = true ∧ fits32 (max a b) = true
    rcases Int.le_total a b with h | h
    · rw [Int.min_eq_left h, Int.max_eq_right h]
      exact ⟨ha, hb⟩
    · rw [Int.min_eq_right h, Int.max_eq_left h]
      exact ⟨hb, ha⟩

theorem range_readable : Yields AsOperand range := by
  refine .bind_consumed (P := fun taken => fits32 taken.2.1 = true ∧ fits32 taken.2.2 = true)
    (.after fun _ => .bind integer_yields fun _ hfirst => .after fun _ => .bind integer_yields fun _ hlast =>
      .pure ⟨hfirst, hlast⟩) ?_
  rintro text ⟨overrides, first, last⟩ hbounds
  exact .pure ⟨.leaf ⟨trivial, trivial, hbounds, trivial⟩ rfl, rfl⟩

theorem symbols_yields (chars : String) :
    Yields (fun taken => taken.1.toList ≠ [] ∧ ∀ c ∈ taken.1.toList, c ∈ chars.toList)
      (consumed (many1 (oneOf chars))) := by
  have hmany : ∀ text all rest, many (oneOf chars) text = some (all, rest) →
      text = all ++ rest ∧ ∀ c ∈ all, c ∈ chars.toList := by
    intro text all rest hread
    refine many_induction (motive := fun text all rest => text = all ++ rest ∧ ∀ c ∈ all, c ∈ chars.toList)
      ?_ ?_ hread
    · intro text _
      exact ⟨rfl, fun c hc => by cases hc⟩
    · rintro text c mid more rest hc - ⟨rfl, hmore⟩
      obtain ⟨rfl, hmem⟩ := satisfy_eq_some.mp hc
      exact ⟨rfl, List.forall_mem_cons.mpr ⟨List.contains_iff_mem.mp hmem, hmore⟩⟩
  rintro text ⟨taken, all⟩ rest hread
  obtain ⟨htext, hall⟩ := consumed_eq_some.mp hread
  obtain ⟨first, mid, hfirst, hrest⟩ := bind_eq_some.mp hall
  obtain ⟨more, mid', hmore, hpure⟩ := bind_eq_some.mp hrest
  obtain ⟨-, rfl⟩ := pure_eq_some.mp hpure
  obtain ⟨rfl, hmem⟩ := satisfy_eq_some.mp hfirst
  obtain ⟨rfl, hothers⟩ := hmany mid more mid' hmore
  -- what is taken is the symbols themselves
  have hsymbols : first :: more = taken.toList := List.append_cancel_right htext
  simp only [← hsymbols]
  exact ⟨List.cons_ne_nil _ _, List.forall_mem_cons.mpr ⟨List.contains_iff_mem.mp hmem, hothers⟩⟩

theorem numeral_readable : Yields AsRead numeral := by
  refine .bind_consumed (P := fun taken => taken.2.1.toList ≠ [] ∧ ∀ c ∈ taken.2.1.toList, c ∈ "iv".toList)
    (.after fun _ => .bind (symbols_yields "iv") fun taken htaken => .after fun _ => .after fun _ => .pure htaken) ?_
  rintro text ⟨duration, symbols, chordName, inversions⟩ ⟨hsymbols, hall⟩
  refine .pure (.leaf ⟨trivial, ⟨hsymbols, ?_⟩, trivial, trivial⟩ rfl)
  intro c hc
  simpa using hall c hc

theorem variableName_yields : Yields (fun c => IsName c.toString) variableName := by
  intro text c rest hread
  exact ⟨c, (satisfy_eq_some.mp hread).2, rfl⟩

theorem expressionItem_readable : Yields AsRead expressionItem := by
  refine .bind_taken (R := fun front _ => AsksNone front) (.or ?_ <| .or ?_ .nothing)
    fun _ _ hasks => .pure (.leaf ⟨trivial, trivial, trivial, hasks⟩ rfl)
  · refine .bind Definite.consumes fun ahead _ hahead => .bind Expr.read_consumes fun front _ hfront => .pure ?_
    rw [List.append_nil]
    exact hfront.1.behind hfront.2 hahead.1
  · exact .map (Expr.read_consumes.imp fun _ _ => And.left)

theorem variableUse_readable : Yields AsRead variableUse :=
  .map (variableName_yields.imp fun _ hname => .leaf ⟨trivial, hname, trivial, trivial⟩ rfl)

theorem together_readable : Yields AsRead together := by
  refine .bind_consumed (P := fun taken => ∀ c ∈ taken.1 :: taken.2, IsName c.toString)
    (.bind variableName_yields fun _ hfirst => .bind variableName_yields.many1 fun _ hmore => .pure ?_) ?_
  · intro c hc
    rcases List.mem_cons.mp hc with rfl | hc
    · exact hfirst
    · exact hmore c hc
  · rintro text ⟨first, more⟩ hnames
    refine .pure (.leaf ⟨trivial, ?_, trivial, trivial⟩ rfl)
    intro name hname
    obtain ⟨c, hc, rfl⟩ := List.mem_map.mp hname
    exact hnames c hc

theorem pitch_readable : Yields AsOperand pitch := by
  refine .bind_taken
    (R := fun front taken => (taken.2.Written ∧ fits32 taken.2.degree = true) ∧ IsDefinite front)
    (.and (Yields.consumes (.after fun _ => .bind tone_yields fun _ htone => .pure ⟨htone.1, htone.2.1⟩))
      Definite.consumes) ?_
  rintro text ⟨duration, tone⟩ ⟨⟨hwritten, hdegree⟩, hdefinite⟩
  refine .pure ⟨.leaf ⟨?_, trivial, List.forall_mem_singleton.mpr hdegree,
    List.forall_mem_singleton.mpr hdefinite.asksNone⟩ rfl, rfl⟩
  show ({ tone with text, overrides := _ } : Pitch).Written
  rw [show tone = _ from hwritten]
  rfl

theorem chord_readable : Yields AsOperand chord := by
  have htones : Yields (fun (taken : Option Float × List Pitch × Option Int) =>
      taken.2.1 ≠ [] ∧ ∀ tone ∈ taken.2.1, tone.Written ∧ fits32 tone.degree = true ∧ AsksNone tone.text.toList) (do
        let duration ← optional durationAhead
        let first ← tone
        let others ← many1 tone
        let inversions ← optional inversion
        return (duration, first :: others, inversions)) := by
    refine .after fun _ => .bind tone_yields fun first hfirst => .bind tone_yields.many1 fun others hothers =>
      .after fun _ => .pure ⟨List.cons_ne_nil _ _, ?_⟩
    intro tone htone
    rcases List.mem_cons.mp htone with rfl | htone
    · exact hfirst
    · exact hothers tone htone
  refine .bind_consumed htones ?_
  rintro text ⟨duration, tones, inversions⟩ ⟨hsome, htones⟩
  exact .pure ⟨.leaf ⟨⟨hsome, fun tone htone => (htones tone htone).1⟩, trivial,
    fun tone htone => (htones tone htone).2.1, fun tone htone => (htones tone htone).2.2⟩ rfl, rfl⟩

theorem block_readable : Yields AsRead block :=
  .bind_consumed (.between (.many (.or blank_readable (.or expressionItem_readable .nothing))))
    fun _ _ hvalues => .pure (.intro ⟨trivial, trivial, rfl, trivial⟩ hvalues)

/-! ### Items with items inside -/

section Rules

variable {item : Reader Node}

theorem list_readable (h : Yields AsRead item) : Yields AsOperand (list item) := by
  refine .bind_consumed (P := fun taken => taken.1.scale = none ∧ ∀ value ∈ taken.2, AsRead value)
    (.bind marks_yields fun _ hmarks => .bind h.many.between fun _ hvalues => .pure ⟨hmarks, hvalues⟩) ?_
  rintro text ⟨overrides, values⟩ ⟨hmarks, hvalues⟩
  exact .pure ⟨.intro ⟨trivial, trivial, hmarks, trivial⟩ hvalues, rfl⟩

theorem subdivision_readable (h : Yields AsRead item) : Yields AsOperand (subdivision item) := by
  refine .bind_consumed (P := fun taken => taken.1.scale = none ∧ ∀ value ∈ taken.2, AsRead value)
    (.bind marks_yields fun _ hmarks => .bind h.many.between fun _ hvalues => .pure ⟨hmarks, hvalues⟩) ?_
  rintro text ⟨overrides, values⟩ ⟨hmarks, hvalues⟩
  exact .pure ⟨.intro ⟨trivial, trivial, hmarks, trivial⟩ hvalues, rfl⟩

theorem cycle_readable (h : Yields AsRead item) : Yields AsOperand (cycle item) := by
  refine .bind_consumed h.many.between ?_
  intro text values hvalues
  refine .pure ⟨.intro ⟨rfl, trivial, trivial, trivial⟩ ?_, rfl⟩
  intro value hvalue
  exact hvalues value (List.mem_filter.mp hvalue).1

theorem operand_readable (h : Yields AsRead item) : Yields AsOperand (operand item) :=
  .or randomInteger_readable <| .or (list_readable h) <| .or (subdivision_readable h) <| .or (cycle_readable h) <|
    .or range_readable <| .or randomPitch_readable <| .or chord_readable <| .or pitch_readable <| .nothing

abbrev StepReadable (step : Operation Node) : Prop := ∀ right ∈ step.right?, right.AsOperand

theorem operation_readable (h : Yields AsRead item) : Yields StepReadable (operation item) := by
  refine .or ?_ <| .or ?_ <| .or ?_ .nothing
  · refine .after fun _ => .bind (operand_readable h) fun right hright => .pure ?_
    intro other hother
    obtain rfl := Option.some.inj hother
    exact hright
  · refine .map_any fun expr => ?_
    intro other hother
    cases hother
  · refine .after fun _ => .bind (operand_readable h) fun right hright => .pure ?_
    intro other hother
    obtain rfl := Option.some.inj hother
    exact hright

def TailReadable : ListTail → Prop
  | .rhythm _ _ _ offset => ∀ node ∈ offset, node.AsOperand
  | .steps operations => ∀ step ∈ operations, StepReadable step

theorem listTail_readable (h : Yields AsRead item) : Yields TailReadable (listTail item) := by
  refine .or ?_ <| .or ?_ .nothing
  · exact .after fun _ => .bind (list_readable h).optional fun _ hoffset => .pure hoffset
  · exact .map (operation_readable h).many

theorem listLike_readable (h : Yields AsRead item) : Yields AsRead (listLike item) := by
  refine .bind_consumed (P := fun taken => AsOperand taken.1 ∧ TailReadable taken.2)
    (.bind (list_readable h) fun _ hleft => .bind (listTail_readable h) fun _ htail => .pure ⟨hleft, htail⟩) ?_
  rintro text ⟨left, tail⟩ ⟨hleft, htail⟩
  refine .pure ?_
  split
  · next offset =>
    refine .intro ⟨⟨hleft.2, fun node hnode => (htail node hnode).2⟩, trivial, trivial, trivial⟩ ?_
    intro node hnode
    rcases List.mem_cons.mp hnode with rfl | hnode
    · exact hleft.1
    · exact (htail node (Option.mem_toList.mp hnode)).1
  · exact hleft.1
  · refine .intro
      ⟨⟨hleft.2, fun step hstep right hright => (htail step hstep right hright).2⟩, trivial, trivial, trivial⟩ ?_
    intro node hnode
    rcases List.mem_cons.mp hnode with rfl | hnode
    · exact hleft.1
    · obtain ⟨step, hstep, hright⟩ := List.mem_filterMap.mp hnode
      exact (htail step hstep node hright).1

theorem count_readable (h : Yields AsRead item) : Yields AsOperand (count item) :=
  .or randomInteger_readable <| .or (cycle_readable h) <|
    .or (.map ((Yields.taken (.and integer_yields.consumes Definite.consumes)).imp fun _ hvalue =>
      ⟨.leaf ⟨trivial, trivial, hvalue.1, hvalue.2.asksNone⟩ rfl, rfl⟩)) .nothing

theorem repetition_readable (h : Yields AsRead item) (opening closing : Char) (replayed : Bool) :
    Yields AsRead (repetition item opening closing replayed) := by
  refine .bind_consumed (P := fun taken => (∀ value ∈ taken.1, AsRead value) ∧ ∀ node ∈ taken.2, AsOperand node)
    (.after fun _ => .bind h.many fun _ hvalues => .after fun _ =>
      .bind (count_readable h).optional fun _ hcount => .after fun _ => .pure ⟨hvalues, hcount⟩) ?_
  rintro text ⟨values, counted⟩ ⟨hvalues, hcount⟩
  have hcounted : AsOperand (counted.getD twice) := by
    cases counted with
    | none => exact ⟨.leaf ⟨trivial, trivial, rfl, IsDefinite.nil.asksNone⟩ rfl, rfl⟩
    | some counted => exact hcount counted rfl
  refine .pure (.intro ⟨hcounted.2, trivial, trivial, trivial⟩ ?_)
  intro node hnode
  rcases List.mem_cons.mp hnode with rfl | hnode
  · exact hcounted.1
  · exact hvalues node hnode

theorem assignment_readable (h : Yields AsRead item) : Yields AsRead (assignment item) := by
  refine .bind_consumed (P := fun taken => IsName taken.1.toString ∧ AsRead taken.2.2 ∧ taken.2.2.isValue = true)
    (.bind variableName_yields fun _ hname => .after fun _ => .bind h.verify fun _ hvalue => .pure ⟨hname, hvalue⟩) ?_
  rintro text ⟨name, sign, value⟩ ⟨hname, hvalue, hisValue⟩
  refine .pure (.intro ⟨hisValue, hname, trivial, trivial⟩ ?_)
  intro node hnode
  obtain rfl := List.mem_singleton.mp hnode
  exact hvalue

theorem itemOver_readable (h : Yields AsRead item) : Yields AsRead (itemOver item) :=
  have operand {p : Reader Node} (hp : Yields AsOperand p) : Yields AsRead p := hp.imp fun _ => And.left
  .or blank_readable <| .or bar_readable <| .or (assignment_readable h) <| .or together_readable <|
    .or variableUse_readable <| .or (repetition_readable h '[' ']' true) <|
    .or (repetition_readable h '(' ')' false) <| .or (operand randomInteger_readable) <| .or (listLike_readable h) <|
    .or (operand (subdivision_readable h)) <| .or control_readable <| .or block_readable <|
    .or (operand range_readable) <| .or numeral_readable <| .or rest_readable <| .or (operand randomPitch_readable) <|
    .or (operand chord_readable) <| .or (operand pitch_readable) <| .or (operand (cycle_readable h)) .nothing

end Rules

theorem itemTo_readable (depth : Nat) : Yields AsRead (itemTo depth) := by
  induction depth with
  | zero => exact .nothing
  | succ depth ih => exact itemOver_readable ih

theorem item_readable : Yields AsRead item := fun text => itemTo_readable (text.length + 1) text

end Grammar

/-- **What stands in a text**, at any depth of its nodes. -/
theorem readPattern_readable {text : String} {nodes : List Node} (h : readPattern text = .ok nodes) :
    ∀ node ∈ nodes, node.AsRead :=
  Grammar.item_readable.many _ nodes [] (readPattern_eq_ok.mp h)

theorem readPattern_textual {text : String} {nodes : List Node} (h : readPattern text = .ok nodes) :
    ∀ node ∈ nodes, node.AsText :=
  fun node hnode => (readPattern_readable h node hnode).imp fun _ => Node.Readable.textual

/-- **Degrees in a text fit into 32 bits**, at any depth of its nodes. -/
theorem readPattern_bounded {text : String} {nodes : List Node} (h : readPattern text = .ok nodes) :
    ∀ node ∈ nodes, node.Everywhere Node.Bounded :=
  fun node hnode => (readPattern_readable h node hnode).imp fun _ => Node.Readable.bounded

/-- **Nothing is resolved in a text**, at any depth of its nodes. -/
theorem readPattern_written {text : String} {nodes : List Node} (h : readPattern text = .ok nodes) :
    ∀ node ∈ nodes, node.AsWritten :=
  fun node hnode => (readPattern_textual h node hnode).imp fun _ => Node.Textual.written

end NumberedMelody
