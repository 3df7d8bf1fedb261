/-
  NumberedMelody/Proofs/Grammar/RandomTexts.lean
  ==============================================
  **What the text of a degree asks for.**  A question mark at the end of a text
  asks for any degree of the scale (`AsksAny`), and two integers in brackets with a
  comma between them, at the end of it too, ask for a degree between these bounds
  (`AsksBetween`); which bounds these are, the text leaves no doubt
  (`AsksBetween.unique`).

  The other texts of degrees ask for nothing of the kind (`AsksNone`).  Marks and
  degrees are *definite*: they have neither a comma nor a question mark in them.
  Conditional expressions have question marks, but no expression ends with one.
-/
import NumberedMelody.Grammar.Item
import NumberedMelody.Proofs.Grammar.Recognition

namespace NumberedMelody

open Reader

/-! ### Texts -/

/-- The text asks for any degree of the scale. -/
def AsksAny (text : List Char) : Prop := ∃ front, text = front ++ ['?']

/-- The text asks for a degree between two bounds. -/
def AsksBetween (text : List Char) (a b : Int) : Prop :=
  ∃ front first second, text = front ++ '(' :: (first ++ ',' :: (second ++ [')'])) ∧
    Decimal.readInt32? first = some a ∧ Decimal.readInt32? second = some b

/-- The text asks for no random degree. -/
def AsksNone (text : List Char) : Prop := ',' ∉ text ∧ ¬AsksAny text

theorem Decimal.sign_eq (text : List Char) : ∃ front, text = front ++ (sign text).2 ∧ ∀ c ∈ front, c = '-' ∨ c = '+' := by
  unfold sign
  split
  · exact ⟨['-'], rfl, by simp⟩
  · exact ⟨['+'], rfl, by simp⟩
  · exact ⟨[], rfl, by simp⟩

theorem mem_of_readInt32? {text : List Char} {n : Int} (h : Decimal.readInt32? text = some n) {c : Char} (hc : c ∈ text) :
    c = '-' ∨ c = '+' ∨ c.isDigit = true := by
  obtain ⟨front, htext, hfront⟩ := Decimal.sign_eq text
  simp only [Decimal.readInt32?, Decimal.readInteger?] at h
  split at h
  · cases h
  · next hdigits =>
    simp only [Bool.or_eq_true, Bool.not_eq_true', not_or, Bool.not_eq_false] at hdigits
    rw [htext] at hc
    rcases List.mem_append.mp hc with hc | hc
    · rcases hfront c hc with rfl | rfl
      · exact .inl rfl
      · exact .inr (.inl rfl)
    · exact .inr (.inr (List.all_eq_true.mp hdigits.2 c hc))

/-- An integer has neither commas nor brackets in it. -/
theorem notMem_of_readInt32? {text : List Char} {n : Int} (h : Decimal.readInt32? text = some n) {c : Char}
    (hc : c = ',' ∨ c = '(') : c ∉ text := by
  intro hmem
  rcases hc with rfl | rfl
  · rcases mem_of_readInt32? h hmem with hc | hc | hc <;> cases hc
  · rcases mem_of_readInt32? h hmem with hc | hc | hc <;> cases hc

/-- A text is split in one way at the first place of a character. -/
theorem parts_of_append {c : Char} {left left' right right' : List Char} (hleft : c ∉ left) (hleft' : c ∉ left')
    (h : left ++ c :: right = left' ++ c :: right') : left = left' ∧ right = right' := by
  rcases List.append_eq_append_iff.mp h with ⟨more, rfl, hmore⟩ | ⟨more, rfl, hmore⟩
  · cases more with
    | nil => exact ⟨(List.append_nil _).symm, (List.cons.inj hmore).2⟩
    | cons d more => exact absurd (by simp [(List.cons.inj hmore).1]) hleft'
  · cases more with
    | nil => exact ⟨List.append_nil _, (List.cons.inj hmore).2.symm⟩
    | cons d more => exact absurd (by simp [(List.cons.inj hmore).1]) hleft

/-- **The bounds that a text asks for are determined.** -/
theorem AsksBetween.unique {text : List Char} {a b c d : Int} (h : AsksBetween text a b) (h' : AsksBetween text c d) :
    a = c ∧ b = d := by
  obtain ⟨front, first, second, rfl, hfirst, hsecond⟩ := h
  obtain ⟨front', first', second', htext, hfirst', hsecond'⟩ := h'
  have outside {sign : Char} (hsign : sign = ',' ∨ sign = '(') {part : List Char} {n : Int}
      (hread : Decimal.readInt32? part = some n) : sign ∉ part.reverse :=
    fun hmem => notMem_of_readInt32? hread hsign (List.mem_reverse.mp hmem)
  -- from the end, the second bound goes up to the comma and the first one up to the bracket
  have hreversed := congrArg List.reverse htext
  simp only [List.reverse_append, List.reverse_cons, List.reverse_nil, List.nil_append, List.append_assoc,
    List.cons_append, List.cons.injEq, true_and] at hreversed
  obtain ⟨hseconds, hreversed⟩ :=
    parts_of_append (outside (.inl rfl) hsecond) (outside (.inl rfl) hsecond') hreversed
  obtain ⟨hfirsts, -⟩ := parts_of_append (outside (.inr rfl) hfirst) (outside (.inr rfl) hfirst') hreversed
  rw [List.reverse_inj] at hseconds hfirsts
  subst hseconds hfirsts
  exact ⟨Option.some.inj (hfirst.symm.trans hfirst'), Option.some.inj (hsecond.symm.trans hsecond')⟩

theorem asksAny_iff {text : List Char} : AsksAny text ↔ text.getLast? = some '?' := List.getLast?_eq_some_iff.symm

theorem AsksBetween.not_any {text : List Char} {a b : Int} (h : AsksBetween text a b) : ¬AsksAny text := by
  intro hany
  obtain ⟨front, first, second, rfl, -, -⟩ := h
  have hlast := asksAny_iff.mp hany
  rw [← List.cons_append, ← List.append_assoc, ← List.cons_append, ← List.append_assoc, List.getLast?_concat] at hlast
  cases hlast

theorem AsksNone.not_between {text : List Char} (h : AsksNone text) {a b : Int} : ¬AsksBetween text a b := by
  rintro ⟨front, first, second, rfl, -, -⟩
  exact h.1 (by simp)

/-- Whether a text asks for any degree, its last sign says. -/
theorem AsksNone.behind {front back : List Char} (h : AsksNone back) (hsome : back ≠ []) (hfront : ',' ∉ front) :
    AsksNone (front ++ back) := by
  have hcomma : ',' ∉ front ++ back := by
    rw [List.mem_append, not_or]
    exact ⟨hfront, h.1⟩
  refine ⟨hcomma, ?_⟩
  rw [asksAny_iff, List.getLast?_append, Option.or_of_isSome (by simpa using hsome), ← asksAny_iff]
  exact h.2

/-! ### Definite texts -/

/-- The text has neither a comma nor a question mark in it. -/
def IsDefinite (text : List Char) : Prop := ',' ∉ text ∧ '?' ∉ text

instance (text : List Char) : Decidable (IsDefinite text) := inferInstanceAs (Decidable (_ ∧ _))

namespace IsDefinite

variable {text front back : List Char}

theorem nil : IsDefinite [] := ⟨List.not_mem_nil, List.not_mem_nil⟩

theorem append (h : IsDefinite front) (hback : IsDefinite back) : IsDefinite (front ++ back) := by
  refine ⟨?_, ?_⟩ <;> rw [List.mem_append, not_or]
  · exact ⟨h.1, hback.1⟩
  · exact ⟨h.2, hback.2⟩

theorem of_all {test : Char → Bool} (hsigns : test ',' = false ∧ test '?' = false) (h : ∀ c ∈ text, test c = true) :
    IsDefinite text := by
  refine ⟨?_, ?_⟩ <;> intro hmem
  · exact absurd (h _ hmem) (Bool.not_eq_true _ ▸ hsigns.1)
  · exact absurd (h _ hmem) (Bool.not_eq_true _ ▸ hsigns.2)

theorem replicate {c : Char} (h : IsDefinite [c]) (count : Nat) : IsDefinite (List.replicate count c) := by
  induction count with
  | zero => exact nil
  | succ count ih => exact h.append ih

theorem asksNone (h : IsDefinite text) : AsksNone text := by
  refine ⟨h.1, ?_⟩
  rintro ⟨front, rfl⟩
  exact h.2 (by simp)

end IsDefinite

namespace Reader

variable {α β : Type} {p : Reader α} {text rest : List Char}

/-- The reader takes neither commas nor question marks. -/
class Definite (p : Reader α) : Prop where
  consumes : Consumes (fun front _ => IsDefinite front) p

namespace Definite

theorem of_satisfy {test : Char → Bool} (hsigns : test ',' = false ∧ test '?' = false) : Definite (satisfy test) where
  consumes text c rest h := by
    obtain ⟨rfl, hc⟩ := satisfy_eq_some.mp h
    exact ⟨[c], rfl, .of_all hsigns (List.forall_mem_singleton.mpr hc)⟩

theorem of_run1 {test : Char → Bool} (hsigns : test ',' = false ∧ test '?' = false) : Definite (run1 test) where
  consumes _ run _ h := ⟨run, (run1_eq_some h).1, .of_all hsigns (test_of_mem_run1 h)⟩

instance (a : α) : Definite (pure a : Reader α) := ⟨.pure .nil⟩

instance [Definite p] {f : α → Reader β} [∀ a, Definite (f a)] : Definite (p >>= f) :=
  ⟨.bind consumes fun _ _ hfront => consumes.imp fun _ _ hback => hfront.append hback⟩

instance [Definite p] (f : α → β) : Definite (f <$> p) := ⟨.map consumes⟩

instance [Definite p] (f : α → Option β) : Definite (mapSome f p) where
  consumes text b rest h := by
    obtain ⟨a, hp, -⟩ := mapSome_eq_some.mp h
    exact consumes text a rest hp

instance : Definite (firstOf ([] : List (Reader α))) := ⟨.nothing⟩

instance {alternatives : List (Reader α)} [Definite p] [Definite (firstOf alternatives)] :
    Definite (firstOf (p :: alternatives)) := ⟨.or consumes consumes⟩

instance [Definite p] : Definite (optional p) where
  consumes text a rest h := by
    rcases optional_eq_some.mp h with ⟨b, hp, -⟩ | ⟨-, -, rfl⟩
    · exact consumes text b rest hp
    · exact ⟨[], rfl, .nil⟩

instance [Definite p] : Definite (many p) where
  consumes text all rest h := by
    refine many_induction (motive := fun text _ rest => ∃ front, text = front ++ rest ∧ IsDefinite front) ?_ ?_ h
    · exact fun text _ => ⟨[], rfl, .nil⟩
    · rintro text a _ more rest hp - ⟨back, rfl, hback⟩
      obtain ⟨front, rfl, hfront⟩ := consumes text a _ hp
      exact ⟨front ++ back, (List.append_assoc ..).symm, hfront.append hback⟩

instance [Definite p] : Definite (many1 p) := by
  unfold many1
  infer_instance

instance [Lossless p] [Definite p] : Definite (consumed p) where
  consumes text taken rest h := by
    obtain ⟨-, hp⟩ := consumed_eq_some.mp h
    exact consumes text taken.2 rest hp

instance [Definite p] {opening closing : Char} [Definite (char opening)] [Definite (char closing)] :
    Definite (between opening closing p) := by
  unfold between
  infer_instance

/-! #### Signs -/

instance : Definite (char '-') := of_satisfy ⟨rfl, rfl⟩
instance : Definite (char '.') := of_satisfy ⟨rfl, rfl⟩
instance : Definite (char '<') := of_satisfy ⟨rfl, rfl⟩
instance : Definite (char '>') := of_satisfy ⟨rfl, rfl⟩
instance : Definite (char 'T') := of_satisfy ⟨rfl, rfl⟩
instance : Definite (char 'E') := of_satisfy ⟨rfl, rfl⟩
instance : Definite (oneOf "^_") := of_satisfy ⟨rfl, rfl⟩
instance : Definite (oneOf "#b") := of_satisfy ⟨rfl, rfl⟩
instance : Definite (satisfy Char.isDigit) := of_satisfy ⟨rfl, rfl⟩
instance : Definite (satisfy Rhythm.isMark) := of_satisfy ⟨rfl, rfl⟩
instance : Definite digits := of_run1 ⟨rfl, rfl⟩

end Definite

end Reader

/-! ### Definite parts of the notation -/

namespace Grammar

instance : Definite integer := by
  unfold integer
  infer_instance

instance : Definite decimal := by
  unfold decimal
  infer_instance

instance : Definite octaveMarks := by
  unfold octaveMarks
  infer_instance

instance : Definite escapedOctave := by
  unfold escapedOctave
  infer_instance

instance : Definite escapedDecimal := by
  unfold escapedDecimal
  infer_instance

instance : Definite durationMark := by
  unfold durationMark
  infer_instance

instance : Definite durationMarks := by
  unfold durationMarks
  infer_instance

instance : Definite durationAhead := by
  unfold durationAhead
  infer_instance

instance : Definite accidentals := by
  unfold accidentals
  infer_instance

instance : Definite mark := by
  unfold mark
  infer_instance

instance : Definite marks := by
  unfold marks
  infer_instance

instance : Definite degree := by
  unfold degree
  infer_instance

instance : Definite tone := by
  unfold tone
  infer_instance

end Grammar

/-! ### Expressions -/

namespace Expr

theorem Literal.isDefinite (l : Literal) : IsDefinite l.text := by
  have hdigits {run : List Char} (hrun : run.all Char.isDigit = true) : IsDefinite run :=
    .of_all ⟨rfl, rfl⟩ (List.all_eq_true.mp hrun)
  have hplaces := hdigits l.places_digits
  refine (hdigits l.whole_digits).append ?_
  cases hsome : l.places with
  | none => exact .nil
  | some places =>
    rw [hsome] at hplaces
    exact (show IsDefinite ['.'] by decide).append hplaces

/-- **No expression asks for a random degree.** -/
theorem Derives.asksNone {level : Level} {text : List Char} {e : Expr} (h : Derives level text e) : AsksNone text := by
  induction h with
  | number l => exact l.isDefinite.asksNone
  | x => exact IsDefinite.asksNone (by decide)
  | @bracketed inside e _ ih =>
    have hclosing : AsksNone [')'] := IsDefinite.asksNone (by decide)
    have hfront : ',' ∉ '(' :: inside := List.not_mem_cons_of_ne_of_not_mem (by decide) ih.1
    exact hclosing.behind (List.cons_ne_nil _ _) hfront
  | negate h ih => exact ih.behind h.opens.ne_nil (show ',' ∉ ['-'] by decide)
  | binary op _ hright ihleft ihright =>
    have hsymbol : ',' ∉ op.symbol.toList := by cases op <;> decide
    exact .behind (ihright.behind hright.opens.ne_nil hsymbol) (by simp [hright.opens.ne_nil]) ihleft.1
  | @conditional condition yes no _ _ _ _ _ hno ihcondition ihyes ihno =>
    have hcolon := ihno.behind hno.opens.ne_nil (show ',' ∉ [':'] by decide)
    have hfront : ',' ∉ '?' :: yes := List.not_mem_cons_of_ne_of_not_mem (by decide) ihyes.1
    have hbranches := hcolon.behind (List.cons_ne_nil _ _) hfront
    exact hbranches.behind (List.cons_ne_nil _ _) ihcondition.1
  | loosen _ ih => exact ih

theorem read_consumes : Consumes (fun front _ => AsksNone front ∧ front ≠ []) Expr.read := by
  intro text e rest h
  obtain ⟨front, rfl, hfront⟩ := derives_of_read h
  exact ⟨front, rfl, hfront.asksNone, hfront.opens.ne_nil⟩

end Expr

/-! ### Random degrees -/

namespace Grammar

theorem integer_consumes : Consumes (fun front n => Decimal.readInt32? front = some n) integer := by
  intro text n rest h
  obtain ⟨taken, htaken, hn⟩ := mapSome_eq_some.mp h
  obtain ⟨minus, mid, hminus, h⟩ := bind_eq_some.mp htaken
  obtain ⟨run, rest', hrun, h⟩ := bind_eq_some.mp h
  obtain ⟨rfl, rfl⟩ := pure_eq_some.mp h
  obtain ⟨rfl, -⟩ := run1_eq_some hrun
  refine ⟨_, ?_, hn⟩
  rcases optional_eq_some.mp hminus with ⟨sign, hsign, rfl⟩ | ⟨-, rfl, rfl⟩
  · obtain ⟨rfl, rfl⟩ := char_eq_some.mp hsign
    rfl
  · rfl

end Grammar

end NumberedMelody
