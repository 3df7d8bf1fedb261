/-
  NumberedMelody/Proofs/Grammar/Laws.lean
  =======================================
  **Laws of readers.**  A reader is *lossless* if it hands back an end of the
  text that it was given, and *productive* if this end is a shorter one.  Both
  pass from the parts of a reader to the whole, so that instances derive them
  from the way a reader is written.

  Repetition of a productive reader never fails (`many_total`): it stops where
  the reader recognises nothing.

  What is recognised may say something of the text that is taken for it
  (`Consumes`); this is found out part by part as well, text after text.
-/
import NumberedMelody.Grammar.Reader

namespace NumberedMelody.Reader

variable {α β : Type} {p : Reader α} {text rest : List Char}

/-! ### What success says -/

theorem pure_eq_some {a b : α} : (pure a : Reader α) text = some (b, rest) ↔ a = b ∧ text = rest := by
  show some (a, text) = some (b, rest) ↔ _
  simp only [Option.some.injEq, Prod.mk.injEq]

theorem bind_eq_some {f : α → Reader β} {result : β × List Char} :
    (p >>= f) text = some result ↔ ∃ a mid, p text = some (a, mid) ∧ f a mid = some result := by
  show Reader.bind p f text = some result ↔ _
  unfold Reader.bind
  cases h : p text with
  | none => simp
  | some pair =>
    obtain ⟨a, mid⟩ := pair
    simp only [Option.some.injEq, Prod.mk.injEq]
    constructor
    · intro hf
      exact ⟨a, mid, ⟨rfl, rfl⟩, hf⟩
    · rintro ⟨_, _, ⟨rfl, rfl⟩, hf⟩
      exact hf

theorem map_eq_some {f : α → β} {b : β} :
    (f <$> p) text = some (b, rest) ↔ ∃ a, p text = some (a, rest) ∧ f a = b := by
  show (p >>= fun a => pure (f a)) text = some (b, rest) ↔ _
  rw [bind_eq_some]
  constructor
  · rintro ⟨a, mid, hp, hpure⟩
    obtain ⟨rfl, rfl⟩ := pure_eq_some.mp hpure
    exact ⟨a, hp, rfl⟩
  · rintro ⟨a, hp, rfl⟩
    exact ⟨a, rest, hp, pure_eq_some.mpr ⟨rfl, rfl⟩⟩

theorem map_apply (f : α → β) (p : Reader α) (text : List Char) :
    (f <$> p) text = (p text).map fun (a, rest) => (f a, rest) := by
  show Reader.bind p (fun a => pure (f a)) text = _
  unfold Reader.bind
  cases p text <;> rfl

theorem mapSome_eq_some {f : α → Option β} {b : β} :
    mapSome f p text = some (b, rest) ↔ ∃ a, p text = some (a, rest) ∧ f a = some b := by
  unfold mapSome
  cases h : p text with
  | none => simp
  | some pair =>
    obtain ⟨a, mid⟩ := pair
    cases hf : f a with
    | none => simp [hf]
    | some value =>
      simp only [hf, Option.map_some, Option.some.injEq, Prod.mk.injEq]
      constructor
      · rintro ⟨rfl, rfl⟩
        exact ⟨a, ⟨rfl, rfl⟩, hf⟩
      · rintro ⟨a', ⟨rfl, rfl⟩, hf'⟩
        rw [hf] at hf'
        exact ⟨Option.some.inj hf', rfl⟩

theorem verify_eq_some {test : α → Bool} {a : α} :
    verify test p text = some (a, rest) ↔ p text = some (a, rest) ∧ test a = true := by
  unfold verify
  rw [mapSome_eq_some]
  constructor
  · rintro ⟨b, hp, hb⟩
    by_cases htest : test b = true
    · rw [if_pos htest] at hb
      obtain rfl := Option.some.inj hb
      exact ⟨hp, htest⟩
    · rw [if_neg htest] at hb
      cases hb
  · rintro ⟨hp, htest⟩
    exact ⟨a, hp, if_pos htest⟩

theorem firstOf_cons_eq_some {alternatives : List (Reader α)} {result : α × List Char} :
    firstOf (p :: alternatives) text = some result ↔
      p text = some result ∨ (p text = none ∧ firstOf alternatives text = some result) := by
  simp only [firstOf]
  cases h : p text with
  | none => simp
  | some first => simp

theorem firstOf_nil (text : List Char) : firstOf ([] : List (Reader α)) text = none := rfl

theorem firstOf_of_none {alternatives : List (Reader α)} (h : p text = none) :
    firstOf (p :: alternatives) text = firstOf alternatives text := by
  simp only [firstOf, h]

theorem firstOf_of_some {alternatives : List (Reader α)} {result : α × List Char} (h : p text = some result) :
    firstOf (p :: alternatives) text = some result := by
  simp only [firstOf, h]

theorem firstOf_of_later_none {alternatives : List (Reader α)} (h : firstOf alternatives text = none) :
    firstOf (p :: alternatives) text = p text := by
  cases hfirst : p text with
  | none => rw [firstOf_of_none hfirst, h]
  | some result => exact firstOf_of_some hfirst

theorem firstOf_cons_eq_none {alternatives : List (Reader α)} :
    firstOf (p :: alternatives) text = none ↔ p text = none ∧ firstOf alternatives text = none := by
  cases h : p text with
  | none => simp [firstOf_of_none h]
  | some result => simp [firstOf_of_some h]

theorem firstOf_append_of_none {before after : List (Reader α)} (h : ∀ p ∈ before, p text = none) :
    firstOf (before ++ after) text = firstOf after text := by
  induction before with
  | nil => rfl
  | cons p before ih =>
    obtain ⟨hp, hmore⟩ := List.forall_mem_cons.mp h
    rw [List.cons_append, firstOf_of_none hp, ih hmore]

theorem firstOf_singleton (p : Reader α) (text : List Char) : firstOf [p] text = p text :=
  firstOf_of_later_none (firstOf_nil text)

theorem optional_eq_some {a : Option α} :
    optional p text = some (a, rest) ↔
      (∃ b, p text = some (b, rest) ∧ a = some b) ∨ (p text = none ∧ a = none ∧ text = rest) := by
  unfold optional
  cases h : p text with
  | none => simp [eq_comm]
  | some pair =>
    obtain ⟨b, mid⟩ := pair
    simp only [Option.some.injEq, Prod.mk.injEq, reduceCtorEq, false_and, or_false]
    constructor
    · rintro ⟨rfl, rfl⟩
      exact ⟨b, ⟨rfl, rfl⟩, rfl⟩
    · rintro ⟨b', ⟨rfl, rfl⟩, rfl⟩
      exact ⟨rfl, rfl⟩

theorem satisfy_eq_some {test : Char → Bool} {c : Char} :
    satisfy test text = some (c, rest) ↔ text = c :: rest ∧ test c = true := by
  cases text with
  | nil => simp [satisfy]
  | cons d more =>
    simp only [satisfy, List.cons.injEq]
    by_cases h : test d = true
    · simp only [if_pos h, Option.some.injEq, Prod.mk.injEq]
      constructor
      · rintro ⟨rfl, rfl⟩
        exact ⟨⟨rfl, rfl⟩, h⟩
      · rintro ⟨hpair, -⟩
        exact hpair
    · simp only [if_neg h, reduceCtorEq, false_iff, not_and]
      rintro ⟨rfl, -⟩
      exact h

theorem char_eq_some {c d : Char} : char c text = some (d, rest) ↔ text = c :: rest ∧ d = c := by
  unfold char
  rw [satisfy_eq_some, beq_iff_eq]
  constructor
  · rintro ⟨rfl, rfl⟩
    exact ⟨rfl, rfl⟩
  · rintro ⟨rfl, rfl⟩
    exact ⟨rfl, rfl⟩

theorem exactly_eq_some {chars : List Char} :
    exactly chars text = some ((), rest) ↔ text = chars ++ rest := by
  induction chars generalizing text with
  | nil =>
    show some ((), text) = some ((), rest) ↔ _
    simp
  | cons c more ih =>
    show (char c >>= fun _ => exactly more) text = some ((), rest) ↔ _
    rw [bind_eq_some]
    constructor
    · rintro ⟨d, mid, hchar, hmore⟩
      obtain ⟨rfl, -⟩ := char_eq_some.mp hchar
      rw [ih.mp hmore]
      rfl
    · intro htext
      exact ⟨c, more ++ rest, char_eq_some.mpr ⟨htext, rfl⟩, ih.mpr rfl⟩

theorem between_eq_some {opening closing : Char} {a : α} :
    between opening closing p text = some (a, rest) ↔
      ∃ inside, text = opening :: inside ∧ p inside = some (a, closing :: rest) := by
  unfold between
  simp only [bind_eq_some, pure_eq_some, char_eq_some]
  constructor
  · rintro ⟨_, inside, ⟨rfl, -⟩, b, mid, hp, _, after, ⟨rfl, -⟩, rfl, rfl⟩
    exact ⟨inside, rfl, hp⟩
  · rintro ⟨inside, rfl, hp⟩
    exact ⟨opening, inside, ⟨rfl, rfl⟩, a, closing :: rest, hp, closing, rest, ⟨rfl, rfl⟩, rfl, rfl⟩

/-! ### What the next character says -/

theorem char_cons (c d : Char) (rest : List Char) : char c (d :: rest) = if d = c then some (d, rest) else none := by
  simp only [char, satisfy, beq_iff_eq]

theorem exactly_cons (c d : Char) (chars rest : List Char) :
    exactly (c :: chars) (d :: rest) = if d = c then exactly chars rest else none := by
  show Reader.bind (char c) (fun _ => exactly chars) (d :: rest) = _
  unfold Reader.bind
  rw [char_cons]
  by_cases h : d = c
  · simp only [if_pos h]
  · simp only [if_neg h]

theorem bind_of_none (h : p text = none) (f : α → Reader β) : (p >>= f) text = none := by
  show Reader.bind p f text = none
  unfold Reader.bind
  rw [h]

theorem bind_of_some {a : α} (h : p text = some (a, rest)) (f : α → Reader β) : (p >>= f) text = f a rest := by
  show Reader.bind p f text = f a rest
  unfold Reader.bind
  rw [h]

theorem optional_of_none (h : p text = none) : optional p text = some (none, text) :=
  optional_eq_some.mpr (.inr ⟨h, rfl, rfl⟩)

/-! ### Repetition -/

/-- The bound does not matter as long as it exceeds the length of the text. -/
theorem manyBelow_eq_of_lt (p : Reader α) (n : Nat) :
    ∀ (m : Nat) (text : List Char), text.length < n → text.length < m →
      manyBelow p n text = manyBelow p m text := by
  induction n with
  | zero =>
    intro m text hn _
    omega
  | succ n ih =>
    intro m text hn hm
    cases m with
    | zero => omega
    | succ m =>
      simp only [manyBelow]
      cases h : p text with
      | none => rfl
      | some pair =>
        obtain ⟨a, mid⟩ := pair
        by_cases hshorter : mid.length < text.length
        · simp only [if_pos hshorter]
          rw [ih m mid (by omega) (by omega)]
        · simp only [if_neg hshorter]

/-- **Repetition**: one more, if it takes something, and then as many as there are. -/
theorem many_eq (p : Reader α) (text : List Char) :
    many p text =
      match p text with
      | none => some ([], text)
      | some (a, mid) =>
        if mid.length < text.length then (many p mid).map fun (more, rest) => (a :: more, rest) else none := by
  simp only [many, manyBelow]
  cases h : p text with
  | none => rfl
  | some pair =>
    obtain ⟨a, mid⟩ := pair
    by_cases hshorter : mid.length < text.length
    · simp only [if_pos hshorter]
      rw [manyBelow_eq_of_lt p text.length (mid.length + 1) mid hshorter (Nat.lt_succ_self _)]
      rfl
    · simp only [if_neg hshorter]

/-- What holds of nothing, where the reader recognises nothing, and is kept by
    one repetition more, holds of all repetitions. -/
theorem many_induction {motive : List Char → List α → List Char → Prop}
    (done : ∀ text, p text = none → motive text [] text)
    (step : ∀ text a mid more rest, p text = some (a, mid) → mid.length < text.length →
      motive mid more rest → motive text (a :: more) rest) :
    ∀ {text : List Char} {all : List α} {rest : List Char}, many p text = some (all, rest) → motive text all rest := by
  intro text
  induction hn : text.length using Nat.strongRecOn generalizing text with
  | ind n ih =>
    intro all rest h
    rw [many_eq] at h
    cases hp : p text with
    | none =>
      simp only [hp, Option.some.injEq, Prod.mk.injEq] at h
      obtain ⟨rfl, rfl⟩ := h
      exact done text hp
    | some pair =>
      obtain ⟨a, mid⟩ := pair
      simp only [hp] at h
      by_cases hshorter : mid.length < text.length
      · rw [if_pos hshorter, Option.map_eq_some_iff] at h
        obtain ⟨⟨more, rest'⟩, hmore, hpair⟩ := h
        obtain ⟨rfl, rfl⟩ := Prod.mk.inj hpair
        exact step text a mid more rest' hp hshorter (ih mid.length (by omega) rfl hmore)
      · rw [if_neg hshorter] at h
        cases h

/-- Repetition ends where the reader recognises nothing. -/
theorem rest_of_many {all : List α} (h : many p text = some (all, rest)) : p rest = none :=
  many_induction (motive := fun _ _ rest => p rest = none) (fun _ hp => hp) (fun _ _ _ _ _ _ _ ih => ih) h

/-! ### Lossless and productive readers -/

/-- The reader hands back an end of the text. -/
class Lossless (p : Reader α) : Prop where
  suffix : ∀ {text a rest}, p text = some (a, rest) → rest <:+ text

/-- The reader hands back an end of the text, and takes something. -/
class Productive (p : Reader α) : Prop extends Lossless p where
  shorter : ∀ {text a rest}, p text = some (a, rest) → rest.length < text.length

theorem Lossless.length_le [Lossless p] {a : α} (h : p text = some (a, rest)) : rest.length ≤ text.length :=
  (Lossless.suffix h).length_le

/-- Repetition recognises nothing where the reader does not. -/
theorem many_of_none (h : p text = none) : many p text = some ([], text) := by
  rw [many_eq, h]

/-- What takes something is the first of all repetitions. -/
theorem many_of_some {a : α} (h : p text = some (a, rest)) (hshorter : rest.length < text.length) :
    many p text = (many p rest).map fun (more, rest) => (a :: more, rest) := by
  rw [many_eq, h]
  simp only [if_pos hshorter]

/-- What a productive reader recognises is the first of all repetitions. -/
theorem many_cons [Productive p] {a : α} (h : p text = some (a, rest)) :
    many p text = (many p rest).map fun (more, rest) => (a :: more, rest) :=
  many_of_some h (Productive.shorter h)

/-- **Repetition of a productive reader never fails.** -/
theorem many_total (p : Reader α) [Productive p] (text : List Char) :
    ∃ all rest, many p text = some (all, rest) := by
  induction hn : text.length using Nat.strongRecOn generalizing text with
  | ind n ih =>
    rw [many_eq]
    cases hp : p text with
    | none => exact ⟨[], text, rfl⟩
    | some pair =>
      obtain ⟨a, mid⟩ := pair
      have hshorter := Productive.shorter hp
      obtain ⟨more, rest, hmore⟩ := ih mid.length (by omega) mid rfl
      exact ⟨a :: more, rest, by simp only [if_pos hshorter, hmore, Option.map_some]⟩

instance (a : α) : Lossless (pure a : Reader α) where
  suffix h := (pure_eq_some.mp h).2 ▸ List.suffix_refl _

instance [Lossless p] {f : α → Reader β} [∀ a, Lossless (f a)] : Lossless (p >>= f) where
  suffix h := by
    obtain ⟨a, mid, hp, hf⟩ := bind_eq_some.mp h
    exact (Lossless.suffix hf).trans (Lossless.suffix hp)

instance [Productive p] {f : α → Reader β} [∀ a, Lossless (f a)] : Productive (p >>= f) where
  shorter h := by
    obtain ⟨a, mid, hp, hf⟩ := bind_eq_some.mp h
    exact Nat.lt_of_le_of_lt (Lossless.length_le hf) (Productive.shorter hp)

instance [Lossless p] {f : α → Reader β} [∀ a, Productive (f a)] : Productive (p >>= f) where
  shorter h := by
    obtain ⟨a, mid, hp, hf⟩ := bind_eq_some.mp h
    exact Nat.lt_of_lt_of_le (Productive.shorter hf) (Lossless.length_le hp)

instance [Lossless p] (f : α → β) : Lossless (f <$> p) where
  suffix h := by
    obtain ⟨a, hp, -⟩ := map_eq_some.mp h
    exact Lossless.suffix hp

instance [Productive p] (f : α → β) : Productive (f <$> p) where
  shorter h := by
    obtain ⟨a, hp, -⟩ := map_eq_some.mp h
    exact Productive.shorter hp

instance [Lossless p] (f : α → Option β) : Lossless (mapSome f p) where
  suffix h := by
    obtain ⟨a, hp, -⟩ := mapSome_eq_some.mp h
    exact Lossless.suffix hp

instance [Productive p] (f : α → Option β) : Productive (mapSome f p) where
  shorter h := by
    obtain ⟨a, hp, -⟩ := mapSome_eq_some.mp h
    exact Productive.shorter hp

instance [Productive p] (test : α → Bool) : Productive (verify test p) :=
  inferInstanceAs (Productive (mapSome _ p))

instance : Productive (firstOf ([] : List (Reader α))) where
  suffix h := by cases h
  shorter h := by cases h

instance {alternatives : List (Reader α)} [Lossless p] [Lossless (firstOf alternatives)] :
    Lossless (firstOf (p :: alternatives)) where
  suffix h := by
    rcases firstOf_cons_eq_some.mp h with hp | ⟨-, hmore⟩
    · exact Lossless.suffix hp
    · exact Lossless.suffix hmore

instance {alternatives : List (Reader α)} [Productive p] [Productive (firstOf alternatives)] :
    Productive (firstOf (p :: alternatives)) where
  shorter h := by
    rcases firstOf_cons_eq_some.mp h with hp | ⟨-, hmore⟩
    · exact Productive.shorter hp
    · exact Productive.shorter hmore

instance [Lossless p] : Lossless (optional p) where
  suffix h := by
    rcases optional_eq_some.mp h with ⟨b, hp, -⟩ | ⟨-, -, rfl⟩
    · exact Lossless.suffix hp
    · exact List.suffix_refl _

instance [Lossless p] : Lossless (many p) where
  suffix h := many_induction (motive := fun text _ rest => rest <:+ text) (fun _ _ => List.suffix_refl _)
    (fun _ _ _ _ _ hp _ ih => ih.trans (Lossless.suffix hp)) h

instance [Productive p] : Productive (many1 p) := by
  unfold many1
  infer_instance

instance (test : Char → Bool) : Productive (satisfy test) where
  suffix h := by
    obtain ⟨rfl, -⟩ := satisfy_eq_some.mp h
    exact List.suffix_cons _ _
  shorter h := by
    obtain ⟨rfl, -⟩ := satisfy_eq_some.mp h
    exact Nat.lt_succ_self _

instance (c : Char) : Productive (char c) := inferInstanceAs (Productive (satisfy _))

instance (chars : String) : Productive (oneOf chars) := inferInstanceAs (Productive (satisfy _))

instance (chars : List Char) : Lossless (exactly chars) where
  suffix h := ⟨chars, (exactly_eq_some.mp h).symm⟩

instance (c : Char) (chars : List Char) : Productive (exactly (c :: chars)) where
  shorter h := by
    rw [exactly_eq_some.mp h, List.length_append, List.length_cons]
    omega

theorem run1_eq_some {test : Char → Bool} {taken : List Char} (h : run1 test text = some (taken, rest)) :
    text = taken ++ rest ∧ taken ≠ [] := by
  unfold run1 at h
  split at h
  · cases h
  · rename_i c more htaken
    simp only [Option.some.injEq, Prod.mk.injEq] at h
    obtain ⟨rfl, rfl⟩ := h
    refine ⟨?_, List.cons_ne_nil _ _⟩
    rw [← htaken]
    exact List.takeWhile_append_dropWhile.symm

theorem test_of_mem_run1 {test : Char → Bool} {taken : List Char} (h : run1 test text = some (taken, rest)) :
    ∀ c ∈ taken, test c = true := by
  unfold run1 at h
  split at h
  · cases h
  · rename_i c more htaken
    obtain ⟨rfl, -⟩ := Prod.mk.inj (Option.some.inj h)
    intro d hd
    rw [← htaken] at hd
    exact List.all_eq_true.mp List.all_takeWhile d hd

/-- A whole run is taken from a text that does not go on with it. -/
theorem run1_whole {test : Char → Bool} {run : List Char} (hne : run ≠ []) (hrun : ∀ c ∈ run, test c = true)
    (hrest : ∀ c ∈ rest.head?, test c = false) : run1 test (run ++ rest) = some (run, rest) := by
  have hstop : rest.takeWhile test = [] ∧ rest.dropWhile test = rest := by
    cases rest with
    | nil => exact ⟨rfl, rfl⟩
    | cons c more => simp [hrest c rfl]
  unfold run1
  rw [List.takeWhile_append_of_pos hrun, List.dropWhile_append_of_pos hrun, hstop.1, hstop.2, List.append_nil]
  cases run with
  | nil => exact absurd rfl hne
  | cons c more => rfl

/-- A whole run of characters is taken, one after the other. -/
theorem many_satisfy {test : Char → Bool} {run : List Char} (hrun : ∀ c ∈ run, test c = true)
    (hrest : satisfy test rest = none) : many (satisfy test) (run ++ rest) = some (run, rest) := by
  induction run with
  | nil => exact many_of_none hrest
  | cons c run ih =>
    obtain ⟨hc, hmore⟩ := List.forall_mem_cons.mp hrun
    have hfirst : satisfy test (c :: (run ++ rest)) = some (c, run ++ rest) := satisfy_eq_some.mpr ⟨rfl, hc⟩
    rw [List.cons_append, many_cons hfirst, ih hmore]
    rfl

theorem many1_satisfy {test : Char → Bool} {run : List Char} (hne : run ≠ []) (hrun : ∀ c ∈ run, test c = true)
    (hrest : satisfy test rest = none) : many1 (satisfy test) (run ++ rest) = some (run, rest) := by
  cases run with
  | nil => exact absurd rfl hne
  | cons c run =>
    obtain ⟨hc, hmore⟩ := List.forall_mem_cons.mp hrun
    exact bind_eq_some.mpr ⟨c, run ++ rest, satisfy_eq_some.mpr ⟨rfl, hc⟩,
      bind_eq_some.mpr ⟨run, rest, many_satisfy hmore hrest, rfl⟩⟩

instance (test : Char → Bool) : Productive (run1 test) where
  suffix h := ⟨_, (run1_eq_some h).1.symm⟩
  shorter h := by
    obtain ⟨htext, hne⟩ := run1_eq_some h
    have := List.length_pos_iff.mpr hne
    rw [htext, List.length_append]
    omega

instance : Productive digits := inferInstanceAs (Productive (run1 _))

instance : Productive separators := inferInstanceAs (Productive (run1 _))

instance (p : Reader α) : Lossless (peek p) where
  suffix h := by
    unfold peek at h
    split at h
    · cases h
    · simp only [Option.some.injEq, Prod.mk.injEq] at h
      exact h.2 ▸ List.suffix_refl _

instance [Lossless p] (opening closing : Char) : Productive (between opening closing p) := by
  unfold between
  infer_instance

/-! ### The text that is taken -/

theorem consumed_eq_some [Lossless p] {taken : String} {a : α} :
    consumed p text = some ((taken, a), rest) ↔ text = taken.toList ++ rest ∧ p text = some (a, rest) := by
  unfold consumed
  cases h : p text with
  | none => simp
  | some pair =>
    obtain ⟨b, mid⟩ := pair
    obtain ⟨front, rfl⟩ := Lossless.suffix h
    have hfront : (front ++ mid).take ((front ++ mid).length - mid.length) = front := by simp
    simp only [hfront, Option.some.injEq, Prod.mk.injEq]
    constructor
    · rintro ⟨⟨rfl, rfl⟩, rfl⟩
      exact ⟨by rw [String.toList_ofList], rfl, rfl⟩
    · rintro ⟨htext, rfl, rfl⟩
      have hsame := List.append_cancel_right htext
      exact ⟨⟨by rw [hsame, String.ofList_toList], rfl⟩, rfl⟩

instance [Lossless p] : Lossless (consumed p) where
  suffix {_ a _} h := by
    obtain ⟨taken, a⟩ := a
    exact Lossless.suffix (consumed_eq_some.mp h).2

instance [Productive p] : Productive (consumed p) where
  shorter {_ a _} h := by
    obtain ⟨taken, a⟩ := a
    exact Productive.shorter (consumed_eq_some.mp h).2

/-- What the reader takes is related to what it recognises. -/
def Consumes (R : List Char → α → Prop) (p : Reader α) : Prop :=
  ∀ text a rest, p text = some (a, rest) → ∃ front, text = front ++ rest ∧ R front a

namespace Consumes

variable {R : List Char → α → Prop} {S : List Char → β → Prop}

theorem lossless [Lossless p] : Consumes (fun _ _ => True) p := by
  intro text a rest h
  obtain ⟨front, rfl⟩ := Lossless.suffix h
  exact ⟨front, rfl, trivial⟩

theorem pure {a : α} (h : R [] a) : Consumes R (Pure.pure a : Reader α) := by
  intro text b rest hread
  obtain ⟨rfl, rfl⟩ := pure_eq_some.mp hread
  exact ⟨[], rfl, h⟩

theorem imp {R' : List Char → α → Prop} (h : Consumes R p) (hR : ∀ front a, R front a → R' front a) : Consumes R' p := by
  intro text a rest hread
  obtain ⟨front, htext, hfront⟩ := h text a rest hread
  exact ⟨front, htext, hR front a hfront⟩

theorem and {R' : List Char → α → Prop} (h : Consumes R p) (h' : Consumes R' p) :
    Consumes (fun front a => R front a ∧ R' front a) p := by
  intro text a rest hread
  obtain ⟨front, htext, hfront⟩ := h text a rest hread
  obtain ⟨other, hother, hfront'⟩ := h' text a rest hread
  obtain rfl := List.append_cancel_right (htext.symm.trans hother)
  exact ⟨front, htext, hfront, hfront'⟩

theorem bind {f : α → Reader β} (h : Consumes R p)
    (hnext : ∀ front a, R front a → Consumes (fun back b => S (front ++ back) b) (f a)) : Consumes S (p >>= f) := by
  intro text b rest hread
  obtain ⟨a, mid, hp, hf⟩ := bind_eq_some.mp hread
  obtain ⟨front, rfl, hfront⟩ := h text a mid hp
  obtain ⟨back, rfl, hback⟩ := hnext front a hfront mid b rest hf
  exact ⟨front ++ back, (List.append_assoc ..).symm, hback⟩

theorem map {f : α → β} (h : Consumes (fun front a => S front (f a)) p) : Consumes S (f <$> p) := by
  intro text b rest hread
  obtain ⟨a, hp, rfl⟩ := map_eq_some.mp hread
  exact h text a rest hp

theorem nothing : Consumes R (firstOf []) := by
  intro text a rest hread
  cases hread

theorem or {alternatives : List (Reader α)} (h : Consumes R p) (hmore : Consumes R (firstOf alternatives)) :
    Consumes R (firstOf (p :: alternatives)) := by
  intro text a rest hread
  rcases firstOf_cons_eq_some.mp hread with hp | ⟨-, hmore'⟩
  · exact h text a rest hp
  · exact hmore text a rest hmore'

theorem char {c : Char} : Consumes (fun front _ => front = [c]) (Reader.char c) := by
  intro text d rest hread
  obtain ⟨rfl, -⟩ := char_eq_some.mp hread
  exact ⟨[c], rfl, rfl⟩

theorem between {opening closing : Char} (h : Consumes (fun front a => R (opening :: (front ++ [closing])) a) p) :
    Consumes R (Reader.between opening closing p) := by
  intro text a rest hread
  obtain ⟨inside, rfl, hp⟩ := between_eq_some.mp hread
  obtain ⟨front, rfl, hfront⟩ := h inside a _ hp
  exact ⟨opening :: (front ++ [closing]), by simp, hfront⟩

end Consumes

end NumberedMelody.Reader
