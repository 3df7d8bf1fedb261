/-
  NumberedMelody/Proofs/Config/TomlLines.lean
  ===========================================
  **Lines that are read back.**  A line that gives a name a value and a line
  that opens a table are read as what they say, whatever the name is and
  whatever lines come after them.  A list takes several lines; a gap is taken
  between its items and nowhere else.
-/
import Mathlib
import NumberedMelody.Config.OptionsText
import NumberedMelody.Proofs.Config.TomlNumbers

namespace NumberedMelody.Toml

open Reader

/-! ### Blanks and gaps -/

/-- The text does not start with a blank, the end of a line or a comment. -/
def Tight (text : List Char) : Prop := ∀ c ∈ text.head?, c ∉ [' ', '\t', '\n', '\r', '#']

theorem tight_cons {c : Char} (h : c ∉ [' ', '\t', '\n', '\r', '#']) (rest : List Char) : Tight (c :: rest) :=
  fun _ hd => Option.some.inj hd ▸ h

theorem blanks_none {text : List Char} (h : ∀ c ∈ text.head?, c ≠ ' ' ∧ c ≠ '\t') : blanks text = some ((), text) :=
  map_eq_some.mpr ⟨[], many_of_none (oneOf_blanks_eq_none h), rfl⟩

theorem blanks_cons {c : Char} (hc : c ≠ ' ' ∧ c ≠ '\t') (rest : List Char) :
    blanks (c :: rest) = some ((), c :: rest) :=
  blanks_none fun _ hd => Option.some.inj hd ▸ hc

theorem Tight.blanks {text : List Char} (h : Tight text) : blanks text = some ((), text) :=
  blanks_none fun c hc => by
    have := h c hc
    simp only [List.mem_cons, not_or] at this
    exact ⟨this.1, this.2.1⟩

theorem Tight.blanks_space {text : List Char} (h : Tight text) : Toml.blanks (' ' :: text) = some ((), text) := by
  obtain ⟨all, hall, -⟩ := map_eq_some.mp h.blanks
  have hspace : many (oneOf " \t") (' ' :: text) = (many (oneOf " \t") text).map fun read => (' ' :: read.1, read.2) :=
    many_of_some rfl (by simp)
  exact map_eq_some.mpr ⟨' ' :: all, by rw [hspace, hall]; rfl, rfl⟩

theorem comment_eq_none {text : List Char} (h : ∀ c ∈ text.head?, c ≠ '#') : comment text = none := by
  cases text with
  | nil => rfl
  | cons c rest => exact bind_of_none (by rw [char_cons, if_neg (h c rfl)]) _

def gapPart : Reader Unit := firstOf [(fun _ => ()) <$> oneOf " \t", lineEnd, comment]

theorem Tight.gap {text : List Char} (h : Tight text) : gap text = some ((), text) := by
  have hnot : ∀ c ∈ text.head?, c ≠ ' ' ∧ c ≠ '\t' ∧ c ≠ '\n' ∧ c ≠ '\r' ∧ c ≠ '#' := fun c hc => by
    simpa only [List.mem_cons, List.not_mem_nil, or_false, not_or] using h c hc
  have hblank : ((fun _ => ()) <$> oneOf " \t" : Reader Unit) text = none :=
    bind_of_none (oneOf_blanks_eq_none fun c hc => ⟨(hnot c hc).1, (hnot c hc).2.1⟩) _
  have hline : lineEnd text = none :=
    lineEnd_eq_none fun c hc => ⟨(hnot c hc).2.2.1, (hnot c hc).2.2.2.1⟩
  have hcomment : comment text = none := comment_eq_none fun c hc => (hnot c hc).2.2.2.2
  have hpart : gapPart text = none := by
    rw [gapPart, firstOf_of_none hblank, firstOf_of_none hline, firstOf_singleton, hcomment]
  exact map_eq_some.mpr ⟨[], many_of_none hpart, rfl⟩

theorem gap_cons {c : Char} {text : List Char} (hc : gapPart (c :: text) = some ((), text)) :
    gap (c :: text) = gap text := by
  have hmany : many gapPart (c :: text) = (many gapPart text).map fun (more, rest) => (() :: more, rest) :=
    many_of_some hc (by simp)
  show (((fun _ => ()) <$> many gapPart) (c :: text)) = (((fun _ => ()) <$> many gapPart) text)
  rw [map_apply, map_apply, hmany, Option.map_map]
  rfl

/-- Items of a list start four blanks into a line. -/
def indent : List Char := [' ', ' ', ' ', ' ']

theorem Tight.gap_newline {text : List Char} (h : Tight text) : Toml.gap ('\n' :: text) = some ((), text) := by
  rw [gap_cons rfl, h.gap]

theorem Tight.gap_indent {text : List Char} (h : Tight text) :
    Toml.gap ('\n' :: (indent ++ text)) = some ((), text) := by
  unfold indent
  simp only [List.cons_append, List.nil_append]
  rw [gap_cons rfl, gap_cons rfl, gap_cons rfl, gap_cons rfl, gap_cons rfl, h.gap]

/-! ### Keys -/

/-- A character of a key without quotation marks. -/
def isBare (c : Char) : Bool := c.isAlphanum || c = '_' || c = '-'

theorem keyPart_eq_none {c : Char} (hbare : isBare c = false) (hquote : c ≠ '"') (happostrophe : c ≠ '\'')
    (rest : List Char) : keyPart (c :: rest) = none := by
  have hrun : (String.ofList <$> run1 isBare) (c :: rest) = none := by
    refine bind_of_none ?_ _
    unfold run1
    rw [List.takeWhile_cons_of_neg (by rw [hbare]; exact Bool.false_ne_true)]
  rw [keyPart, firstOf_of_none (basicString_eq_none hquote rest),
    firstOf_of_none (literalString_eq_none happostrophe rest), firstOf_singleton]
  exact hrun

theorem keyPart_bare {word rest : List Char} (hne : word ≠ []) (hword : ∀ c ∈ word, isBare c = true)
    (hrest : ∀ c ∈ rest.head?, isBare c = false) : keyPart (word ++ rest) = some (String.ofList word, rest) := by
  have hrun := run1_whole hne hword hrest
  obtain ⟨c, more, rfl⟩ := List.exists_cons_of_ne_nil hne
  have hfirst : isBare c = true := hword c List.mem_cons_self
  have hquote : c ≠ '"' := by
    rintro rfl
    cases hfirst
  have happostrophe : c ≠ '\'' := by
    rintro rfl
    cases hfirst
  rw [keyPart, List.cons_append, firstOf_of_none (basicString_eq_none hquote _),
    firstOf_of_none (literalString_eq_none happostrophe _), firstOf_singleton]
  exact map_eq_some.mpr ⟨c :: more, hrun, rfl⟩

/-- The parts of a key are read back, in each of the three ways of writing them. -/
theorem keyPart_keyText (name : String) (rest : List Char) (hrest : ∀ c ∈ rest.head?, isBare c = false) :
    keyPart ((keyText name).toList ++ rest) = some (name, rest) := by
  simp only [keyText]
  split
  · next hbare =>
    simp only [Bool.and_eq_true, Bool.not_eq_true', List.isEmpty_eq_false_iff, List.all_eq_true] at hbare
    rw [keyPart_bare hbare.1 hbare.2 hrest, String.ofList_toList]
  · split
    · next hquoted =>
      simp only [Bool.and_eq_true, List.all_eq_true, bne_iff_ne] at hquoted
      have htext : ("'" ++ name ++ "'").toList ++ rest = '\'' :: name.toList ++ '\'' :: rest := by
        simp [String.toList_append]
      have hbasic : basicString ('\'' :: name.toList ++ '\'' :: rest) = none := basicString_eq_none (by decide) _
      rw [htext, keyPart, firstOf_of_none hbasic]
      exact firstOf_of_some (by rw [literalString_quoted hquoted.2, String.ofList_toList])
    · rw [keyPart]
      exact firstOf_of_some (by rw [basicString_lineQuoted, String.ofList_toList])

theorem keyPart_keyText_cons (name : String) {c : Char} (hc : isBare c = false) (rest : List Char) :
    keyPart ((keyText name).toList ++ c :: rest) = some (name, c :: rest) :=
  keyPart_keyText name (c :: rest) fun _ hd => Option.some.inj hd ▸ hc

/-- A key starts where it is written. -/
theorem head_keyText (name : String) : ∃ c more, (keyText name).toList = c :: more ∧ c ∉ [' ', '\t', '['] := by
  have hread : keyPart ((keyText name).toList ++ []) = some (name, []) := keyPart_keyText name [] (by simp)
  rw [List.append_nil] at hread
  cases htext : (keyText name).toList with
  | nil =>
    rw [htext] at hread
    cases hread
  | cons c more =>
    refine ⟨c, more, rfl, fun hc => ?_⟩
    have hnone : keyPart (c :: more) = none := by
      simp only [List.mem_cons, List.not_mem_nil, or_false] at hc
      rcases hc with rfl | rfl | rfl <;> exact keyPart_eq_none rfl (by decide) (by decide) more
    rw [htext, hnone] at hread
    cases hread

/-- A point and one more part of a key. -/
def furtherPart : Reader String := do
  blanks
  let _ ← char '.'
  blanks
  keyPart

theorem furtherPart_eq_none {text rest : List Char} {c : Char} (hblanks : blanks text = some ((), c :: rest))
    (hc : c ≠ '.') : furtherPart text = none :=
  (bind_of_some hblanks _).trans (bind_of_none (by rw [char_cons, if_neg hc]) _)

theorem key_eq_some {text mid rest : List Char} {name : String} {more : List String}
    (hfirst : keyPart text = some (name, mid)) (hmore : many furtherPart mid = some (more, rest))
    (hlength : more.length < depthLimit) : key text = some (name :: more, rest) :=
  verify_eq_some.mpr ⟨bind_eq_some.mpr ⟨name, mid, hfirst, bind_eq_some.mpr ⟨more, rest, hmore, rfl⟩⟩,
    decide_eq_true hlength⟩

/-! ### Values -/

theorem scalar_eq_none {c : Char} (hc : c ∈ [' ', '\t', '\n', '\r', '#', '[', ']']) (rest : List Char) :
    scalar (c :: rest) = none := by
  have hnot : c ≠ '"' ∧ c ≠ '\'' ∧ c.isDigit = false ∧ c ≠ ':' ∧ c ≠ '-' := by
    simp only [List.mem_cons, List.not_mem_nil, or_false] at hc
    rcases hc with rfl | rfl | rfl | rfl | rfl | rfl | rfl <;> decide
  have hunsigned : Unsigned [] (c :: rest) := ⟨List.forall_mem_nil _, fun d hd => by
    obtain rfl : c = d := Option.some.inj hd
    exact ⟨hnot.2.2.1, hnot.2.2.2.1, fun h => absurd h hnot.2.2.2.2⟩⟩
  have hmoment : moment (c :: rest) = none := moment_eq_none hunsigned
  rw [scalar_eq_unquoted (string_eq_none hnot.1 hnot.2.1 rest) hmoment]
  simp only [List.mem_cons, List.not_mem_nil, or_false] at hc
  rcases hc with rfl | rfl | rfl | rfl | rfl | rfl | rfl <;> rfl

/-- No value starts with a blank, at the end of a line or at the end of a list. -/
theorem valueTo_eq_none {c : Char} (hc : c ∈ [' ', '\t', '\n', '\r', '#', ']']) (depth : Nat) (rest : List Char) :
    valueTo depth (c :: rest) = none := by
  have hnot : c ≠ '[' ∧ c ≠ '\x7b' := by
    constructor <;> rintro rfl <;> exact absurd hc (by decide)
  have hscalar := scalar_eq_none ((by decide : _ ⊆ [' ', '\t', '\n', '\r', '#', '[', ']']) hc) rest
  cases depth with
  | zero => exact hscalar
  | succ depth =>
    have harray : array (valueTo depth) (c :: rest) = none := bind_of_none (by rw [char_cons, if_neg hnot.1]) _
    have hinline : inline (valueTo depth) (c :: rest) = none := by
      unfold inline mapSome
      rw [bind_of_none (by rw [char_cons, if_neg hnot.2])]
    rw [valueTo, firstOf_of_none hscalar, firstOf_of_none harray, firstOf_singleton, hinline]

theorem valueTo_of_scalar {text rest : List Char} {d : Document} (h : scalar text = some (d, rest)) (depth : Nat) :
    valueTo depth text = some (d, rest) := by
  cases depth with
  | zero => exact h
  | succ depth => exact firstOf_of_some h

theorem tight_of_valueTo {depth : Nat} {text rest : List Char} {d : Document}
    (h : valueTo depth text = some (d, rest)) : Tight text := by
  cases text with
  | nil => exact fun _ hc => nomatch hc
  | cons c text =>
    refine tight_cons (fun hc => ?_) text
    rw [valueTo_eq_none ((by decide : _ ⊆ [' ', '\t', '\n', '\r', '#', ']']) hc)] at h
    cases h

/-! ### Lists -/

/-- A comma and one more item of a list. -/
def furtherItem (value : Reader Document) : Reader Document := do
  gap
  let _ ← char ','
  gap
  value

/-- What is between the brackets of a list. -/
def items (value : Reader Document) : Reader (List Document) := do
  let first ← value
  let more ← many (furtherItem value)
  gap
  let _ ← optional (char ',')
  gap
  return first :: more

theorem array_eq_some {value : Reader Document} {text mid rest : List Char} (all : Option (List Document))
    (hgap : gap text = some ((), mid)) (hitems : optional (items value) mid = some (all, ']' :: rest)) :
    array value ('[' :: text) = some (.list (all.getD []), rest) :=
  bind_eq_some.mpr ⟨'[', text, rfl, bind_eq_some.mpr ⟨(), mid, hgap, bind_eq_some.mpr ⟨all, ']' :: rest, hitems,
    bind_eq_some.mpr ⟨']', rest, rfl, rfl⟩⟩⟩⟩

theorem furtherItem_eq_some {value : Reader Document} {text mid rest : List Char} {d : Document}
    (hgap : gap text = some ((), mid)) (hvalue : value mid = some (d, rest)) :
    furtherItem value (',' :: text) = some (d, rest) :=
  bind_eq_some.mpr ⟨(), ',' :: text, (tight_cons (by decide) _).gap, bind_eq_some.mpr ⟨',', text, rfl,
    bind_eq_some.mpr ⟨(), mid, hgap, hvalue⟩⟩⟩

theorem furtherItem_close (value : Reader Document) (rest : List Char) : furtherItem value (']' :: rest) = none :=
  (bind_of_some (tight_cons (by decide) _).gap _).trans (bind_of_none rfl _)

theorem furtherItem_last (depth : Nat) (rest : List Char) :
    furtherItem (valueTo depth) (',' :: '\n' :: ']' :: rest) = none := by
  have hclose : Tight (']' :: rest) := tight_cons (by decide) rest
  have hcomma : char ',' (',' :: '\n' :: ']' :: rest) = some (',', '\n' :: ']' :: rest) := rfl
  refine (bind_of_some (tight_cons (by decide) _).gap _).trans ((bind_of_some hcomma _).trans ?_)
  exact (bind_of_some hclose.gap_newline _).trans (valueTo_eq_none (by decide) depth rest)

/-- The lines of a list's items. -/
def itemLines (xs : List Float) : List Char := xs.flatMap fun x => indent ++ (numberText x).toList ++ [',', '\n']

theorem itemLines_cons (x : Float) (xs : List Float) (rest : List Char) :
    itemLines (x :: xs) ++ rest = indent ++ ((numberText x).toList ++ ',' :: '\n' :: (itemLines xs ++ rest)) := by
  simp [itemLines]

theorem many_furtherItem {xs : List Float} (h : ∀ x ∈ xs, x.isFinite = true) (depth : Nat) (rest : List Char) :
    many (furtherItem (valueTo depth)) (',' :: '\n' :: (itemLines xs ++ ']' :: rest)) =
      some (xs.map .number, ',' :: '\n' :: ']' :: rest) := by
  induction xs with
  | nil => exact many_of_none (furtherItem_last depth rest)
  | cons x xs ih =>
    obtain ⟨hx, hxs⟩ := List.forall_mem_cons.mp h
    have hvalue : valueTo depth ((numberText x).toList ++ ',' :: '\n' :: (itemLines xs ++ ']' :: rest)) = _ :=
      valueTo_of_scalar (readsAs_numberText hx _ ⟨',', _, rfl, by decide⟩) depth
    have hfirst := furtherItem_eq_some (tight_of_valueTo hvalue).gap_indent hvalue
    rw [itemLines_cons, many_of_some hfirst (by simp; omega), ih hxs]
    rfl

/-- The last item may have a comma behind it. -/
theorem items_eq_some {value : Reader Document} {text mid last after rest : List Char} {d : Document}
    {ds : List Document} {comma : Option Char} (hfirst : value text = some (d, mid))
    (hmore : many (furtherItem value) mid = some (ds, last)) (hlast : Tight last)
    (hcomma : optional (char ',') last = some (comma, after)) (hgap : gap after = some ((), rest)) :
    items value text = some (d :: ds, rest) :=
  bind_eq_some.mpr ⟨_, _, hfirst, bind_eq_some.mpr ⟨_, _, hmore, bind_eq_some.mpr ⟨_, _, hlast.gap,
    bind_eq_some.mpr ⟨_, _, hcomma, bind_eq_some.mpr ⟨_, _, hgap, rfl⟩⟩⟩⟩⟩

section Items

variable (depth : Nat) (rest : List Char)

theorem array_empty : array (valueTo depth) ('[' :: ']' :: rest) = some (.list [], rest) := by
  refine array_eq_some none (tight_cons (by decide) rest).gap (optional_of_none ?_)
  exact bind_of_none (valueTo_eq_none (by decide) depth rest) _

theorem array_one {x : Float} (h : x.isFinite = true) :
    array (valueTo depth) ('[' :: ((numberText x).toList ++ ']' :: rest)) = some (.list [.number x], rest) := by
  have hclose : Tight (']' :: rest) := tight_cons (by decide) rest
  have hvalue : valueTo depth ((numberText x).toList ++ ']' :: rest) = _ :=
    valueTo_of_scalar (readsAs_numberText h _ ⟨']', rest, rfl, by decide⟩) depth
  have hitems := items_eq_some hvalue (many_of_none (furtherItem_close _ rest)) hclose (optional_of_none rfl) hclose.gap
  exact array_eq_some (some [.number x]) (tight_of_valueTo hvalue).gap (optional_eq_some.mpr (.inl ⟨_, hitems, rfl⟩))

theorem array_lines {x : Float} {xs : List Float} (h : ∀ y ∈ x :: xs, y.isFinite = true) :
    array (valueTo depth) ('[' :: '\n' :: (itemLines (x :: xs) ++ ']' :: rest)) =
      some (.list ((x :: xs).map .number), rest) := by
  obtain ⟨hx, hxs⟩ := List.forall_mem_cons.mp h
  have hclose : Tight (']' :: rest) := tight_cons (by decide) rest
  have hvalue : valueTo depth ((numberText x).toList ++ ',' :: '\n' :: (itemLines xs ++ ']' :: rest)) = _ :=
    valueTo_of_scalar (readsAs_numberText hx _ ⟨',', _, rfl, by decide⟩) depth
  have hcomma : optional (char ',') (',' :: '\n' :: ']' :: rest) = some (some ',', '\n' :: ']' :: rest) := rfl
  have hitems := items_eq_some hvalue (many_furtherItem hxs depth rest) (tight_cons (by decide) _) hcomma
    hclose.gap_newline
  rw [itemLines_cons]
  exact array_eq_some (some ((x :: xs).map .number)) (tight_of_valueTo hvalue).gap_indent
    (optional_eq_some.mpr (.inl ⟨_, hitems, rfl⟩))

end Items

theorem valueTo_arrayText {xs : List Float} (h : ∀ x ∈ xs, x.isFinite = true) (depth : Nat) (rest : List Char) :
    valueTo (depth + 1) ((arrayText xs).toList ++ rest) = some (.list (xs.map .number), rest) := by
  suffices harray : ∃ text, (arrayText xs).toList ++ rest = '[' :: text ∧
      array (valueTo depth) ('[' :: text) = some (.list (xs.map .number), rest) by
    obtain ⟨text, htext, harray⟩ := harray
    rw [htext, valueTo, firstOf_of_none (scalar_eq_none (by decide) _)]
    exact firstOf_of_some harray
  match xs, h with
  | [], _ => exact ⟨']' :: rest, rfl, array_empty depth rest⟩
  | [x], h =>
    exact ⟨(numberText x).toList ++ ']' :: rest, by simp [arrayText], array_one depth rest (h x (List.mem_singleton_self x))⟩
  | x :: y :: more, h =>
    refine ⟨'\n' :: (itemLines (x :: y :: more) ++ ']' :: rest), ?_, array_lines depth rest h⟩
    simp [arrayText, itemLines, indent, List.flatMap_map]

/-! ### Lines -/

/-- What stands on a line of a document, after the blanks. -/
def lineContent : Reader Line :=
  firstOf
    [Line.element <$> header ['[', '['] [']', ']'],
      Line.table <$> header ['['] [']'],
      (fun (key, value) => Line.entry key value) <$> entry (valueTo depthLimit),
      pure .nothing]

theorem endOfLine_newline (rest : List Char) : endOfLine ('\n' :: rest) = some ((), rest) :=
  bind_eq_some.mpr ⟨(), _, blanks_cons (by decide) rest, bind_eq_some.mpr ⟨none, _, optional_of_none rfl, rfl⟩⟩

/-- The text is one line, which says `l`. -/
theorem line_eq_some {c : Char} {text rest : List Char} {l : Line} (hc : c ≠ ' ' ∧ c ≠ '\t')
    (hcontent : lineContent (c :: text) = some (l, '\n' :: rest)) : line (c :: text) = some (l, rest) :=
  bind_eq_some.mpr ⟨(), c :: text, rfl, bind_eq_some.mpr ⟨(), c :: text, blanks_cons hc text,
    bind_eq_some.mpr ⟨l, '\n' :: rest, hcontent, bind_eq_some.mpr ⟨(), rest, endOfLine_newline rest, rfl⟩⟩⟩⟩

theorem header_eq_none {opening closing : List Char} {c : Char} (hc : c ≠ '[') (rest : List Char) :
    header ('[' :: opening) closing (c :: rest) = none :=
  bind_of_none (by rw [exactly_cons, if_neg hc]) _

theorem lineContent_eq {c : Char} (hc : c ≠ '[') (text : List Char) :
    lineContent (c :: text) =
      firstOf [(fun (key, value) => Line.entry key value) <$> entry (valueTo depthLimit), pure .nothing]
        (c :: text) := by
  have helement : (Line.element <$> header ['[', '['] [']', ']']) (c :: text) = none :=
    bind_of_none (header_eq_none hc text) _
  have htable : (Line.table <$> header ['['] [']']) (c :: text) = none := bind_of_none (header_eq_none hc text) _
  rw [lineContent, firstOf_of_none helement, firstOf_of_none htable]

/-- Nothing stands where there is neither a header nor a key. -/
theorem lineContent_nothing {c : Char} (hheader : c ≠ '[') {text : List Char} (hpart : keyPart (c :: text) = none) :
    lineContent (c :: text) = some (.nothing, c :: text) := by
  have hkey : key (c :: text) = none := by
    unfold key verify mapSome
    rw [bind_of_none hpart]
  have hentry : ((fun (key, value) => Line.entry key value) <$> entry (valueTo depthLimit)) (c :: text) = none :=
    bind_of_none (bind_of_none hkey _) _
  rw [lineContent_eq hheader, firstOf_of_none hentry]
  rfl

theorem line_newline (rest : List Char) : line ('\n' :: rest) = some (.nothing, rest) :=
  line_eq_some (by decide) (lineContent_nothing (by decide) (keyPart_eq_none rfl (by decide) (by decide) rest))

theorem line_mark (rest : List Char) : line (byteOrderMark :: rest) = none := by
  have hne : byteOrderMark ≠ '\n' ∧ byteOrderMark ≠ '\r' := by decide
  have hend : lineEnd (byteOrderMark :: rest) = none := lineEnd_eq_none fun _ hd => Option.some.inj hd ▸ hne
  have hends : endOfLine (byteOrderMark :: rest) = none := by
    refine (bind_of_some (blanks_cons (by decide) rest) _).trans ((bind_of_some (optional_of_none rfl) _).trans ?_)
    rw [firstOf_of_none hend]
    rfl
  have hcontent : lineContent (byteOrderMark :: rest) = some (.nothing, byteOrderMark :: rest) :=
    lineContent_nothing (by decide) (keyPart_eq_none rfl (by decide) (by decide) rest)
  exact (bind_of_some rfl _).trans ((bind_of_some (blanks_cons (by decide) rest) _).trans
    ((bind_of_some hcontent _).trans (bind_of_none hends _)))

/-- The text is read as the document in a line, whatever comes after the line. -/
def IsValue (text : String) (d : Document) : Prop :=
  ∀ rest, valueTo depthLimit (text.toList ++ '\n' :: rest) = some (d, '\n' :: rest)

theorem ReadsAs.isValue {text : String} {d : Document} (h : ReadsAs text d) : IsValue text d :=
  fun rest => valueTo_of_scalar (h _ ⟨'\n', rest, rfl, by decide⟩) depthLimit

theorem isValue_arrayText {xs : List Float} (h : ∀ x ∈ xs, x.isFinite = true) :
    IsValue (arrayText xs) (.list (xs.map .number)) :=
  fun rest => valueTo_arrayText h 78 ('\n' :: rest)

/-- **A line gives its name its value.** -/
theorem line_lineText (name : String) {value : String} {d : Document} (h : IsValue value d) (rest : List Char) :
    line ((lineText name value).toList ++ rest) = some (.entry [name] d, rest) := by
  have hvalue := h rest
  have htight : Tight (value.toList ++ '\n' :: rest) := tight_of_valueTo hvalue
  have hequals : Tight ('=' :: ' ' :: (value.toList ++ '\n' :: rest)) := tight_cons (by decide) _
  have htext : (lineText name value).toList ++ rest =
      (keyText name).toList ++ ' ' :: '=' :: ' ' :: (value.toList ++ '\n' :: rest) := by
    simp [lineText]
  have hpart := keyPart_keyText_cons name (c := ' ') rfl ('=' :: ' ' :: (value.toList ++ '\n' :: rest))
  have hkey := key_eq_some hpart (many_of_none (furtherPart_eq_none hequals.blanks_space (by decide))) (by decide)
  have hentry : entry (valueTo depthLimit) _ = some (([name], d), '\n' :: rest) :=
    bind_eq_some.mpr ⟨_, _, hkey, bind_eq_some.mpr ⟨(), _, hequals.blanks_space, bind_eq_some.mpr ⟨'=', _, rfl,
      bind_eq_some.mpr ⟨(), _, htight.blanks_space, bind_eq_some.mpr ⟨_, _, hvalue, rfl⟩⟩⟩⟩⟩
  obtain ⟨c, more, hcons, hc⟩ := head_keyText name
  simp only [List.mem_cons, List.not_mem_nil, or_false, not_or] at hc
  rw [hcons] at hentry
  rw [htext, hcons]
  refine line_eq_some ⟨hc.1, hc.2.1⟩ ?_
  rw [← List.cons_append, List.cons_append, lineContent_eq hc.2.2]
  exact firstOf_of_some (map_eq_some.mpr ⟨_, hentry, rfl⟩)

/-- **A header opens a table.** -/
theorem line_header {c : Char} {text rest : List Char} {name : List String} (hc : c ∉ [' ', '\t', '['])
    (hkey : key (c :: text) = some (name, ']' :: '\n' :: rest)) :
    line ('[' :: c :: text) = some (.table name, rest) := by
  simp only [List.mem_cons, List.not_mem_nil, or_false, not_or] at hc
  have helement : (Line.element <$> header ['[', '['] [']', ']']) ('[' :: c :: text) = none := by
    refine bind_of_none (bind_of_none ?_ _) _
    rw [exactly_cons, if_pos rfl, exactly_cons, if_neg hc.2.2]
  have htable : header ['['] [']'] ('[' :: c :: text) = some (name, '\n' :: rest) :=
    bind_eq_some.mpr ⟨(), _, rfl, bind_eq_some.mpr ⟨(), _, blanks_cons ⟨hc.1, hc.2.1⟩ text,
      bind_eq_some.mpr ⟨_, _, hkey,
      bind_eq_some.mpr ⟨(), _, blanks_cons (by decide) _, bind_eq_some.mpr ⟨(), _, rfl, rfl⟩⟩⟩⟩⟩
  refine line_eq_some (by decide) ?_
  rw [lineContent, firstOf_of_none helement]
  exact firstOf_of_some (map_eq_some.mpr ⟨_, htable, rfl⟩)

theorem furtherPart_close (rest : List Char) : furtherPart (']' :: rest) = none :=
  furtherPart_eq_none (blanks_cons (by decide) rest) (by decide)

theorem line_header_keyText (name : String) (rest : List Char) :
    line ('[' :: ((keyText name).toList ++ ']' :: '\n' :: rest)) = some (.table [name], rest) := by
  have hpart := keyPart_keyText_cons name (c := ']') rfl ('\n' :: rest)
  have hkey := key_eq_some hpart (many_of_none (furtherPart_close _)) (by decide)
  obtain ⟨c, more, hcons, hc⟩ := head_keyText name
  rw [hcons] at hkey ⊢
  exact line_header hc hkey

theorem line_header_keyText_keyText (first second : String) (rest : List Char) :
    line ('[' :: ((keyText first).toList ++ '.' :: ((keyText second).toList ++ ']' :: '\n' :: rest))) =
      some (.table [first, second], rest) := by
  have hfirst := keyPart_keyText_cons first (c := '.') rfl ((keyText second).toList ++ ']' :: '\n' :: rest)
  have hsecond := keyPart_keyText_cons second (c := ']') rfl ('\n' :: rest)
  have hblanks : blanks ((keyText second).toList ++ ']' :: '\n' :: rest) = some ((), _) :=
    blanks_none fun d hd => by
      obtain ⟨c, more, hcons, hc⟩ := head_keyText second
      rw [hcons] at hd
      obtain rfl : c = d := Option.some.inj hd
      simp only [List.mem_cons, not_or] at hc
      exact ⟨hc.1, hc.2.1⟩
  have hfurther : furtherPart ('.' :: ((keyText second).toList ++ ']' :: '\n' :: rest)) = some (second, _) :=
    bind_eq_some.mpr ⟨(), _, blanks_cons (by decide) _, bind_eq_some.mpr ⟨'.', _, rfl,
      bind_eq_some.mpr ⟨(), _, hblanks, hsecond⟩⟩⟩
  have hmore : many furtherPart ('.' :: ((keyText second).toList ++ ']' :: '\n' :: rest)) =
      some ([second], ']' :: '\n' :: rest) := by
    rw [many_of_some hfurther (by simp), many_of_none (furtherPart_close _)]
    rfl
  have hkey := key_eq_some hfirst hmore (Nat.succ_lt_succ (Nat.succ_pos 77))
  obtain ⟨c, more, hcons, hc⟩ := head_keyText first
  rw [hcons] at hkey ⊢
  exact line_header hc hkey

/-! ### Several lines -/

/-- The text is read as the lines, whatever lines come after them. -/
def Reads (text : List Char) (lines : List Line) : Prop :=
  ∀ rest, many line (text ++ rest) = (many line rest).map fun (more, rest) => (lines ++ more, rest)

theorem reads_nil : Reads [] [] := fun rest => by
  show many line rest = (many line rest).map id
  rw [Option.map_id_fun, id]

theorem reads_line {text : List Char} {l : Line} (hne : text ≠ []) (h : ∀ rest, line (text ++ rest) = some (l, rest)) :
    Reads text [l] := fun rest => by
  have hlength := List.length_pos_iff.mpr hne
  exact many_of_some (h rest) (by rw [List.length_append]; omega)

theorem Reads.append {first second : List Char} {firstLines secondLines : List Line} (hfirst : Reads first firstLines)
    (hsecond : Reads second secondLines) : Reads (first ++ second) (firstLines ++ secondLines) := fun rest => by
  rw [List.append_assoc, hfirst, hsecond, Option.map_map]
  simp only [Function.comp_def, List.append_assoc]

theorem Reads.flatMap {α : Type} {as : List α} {write : α → List Char} {lines : α → List Line}
    (h : ∀ a ∈ as, Reads (write a) (lines a)) : Reads (as.flatMap write) (as.flatMap lines) := by
  induction as with
  | nil => exact reads_nil
  | cons a as ih =>
    obtain ⟨ha, has⟩ := List.forall_mem_cons.mp h
    exact ha.append (ih has)

theorem Reads.whole {text : List Char} {lines : List Line} (h : Reads text lines) :
    many line text = some (lines, []) := by
  have hend : line [] = none := bind_of_none rfl _
  have hnil := h []
  rw [List.append_nil, many_of_none hend] at hnil
  simpa only [Option.map_some, List.append_nil] using hnil

/-- What is read as lines has no mark of the byte order in front of it. -/
theorem Reads.head_ne_mark {text : List Char} {lines : List Line} (h : Reads text lines) :
    ∀ c ∈ text.head?, c ≠ byteOrderMark := by
  rintro c hc rfl
  cases text with
  | nil => cases hc
  | cons c rest =>
    obtain rfl : c = byteOrderMark := Option.some.inj hc
    have hwhole := h.whole
    rw [many_of_none (line_mark rest)] at hwhole
    cases hwhole

theorem reads_lineText (name : String) {value : String} {d : Document} (h : IsValue value d) :
    Reads (lineText name value).toList [.entry [name] d] := by
  refine reads_line ?_ fun rest => line_lineText name h rest
  simp [lineText]

end NumberedMelody.Toml
