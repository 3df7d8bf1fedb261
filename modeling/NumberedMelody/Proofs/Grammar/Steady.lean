/-
  NumberedMelody/Proofs/Grammar/Steady.lean
  =========================================
  **Steady readers.**  A reader tries alternatives, looks ahead and goes back,
  so what it takes from a text may change when more text follows.  It does not
  change where the text is *whole*, every group in it closed, and what follows
  starts with a sign that nothing reads on over.  A reader that has read up to
  the end of a whole text stands outside all groups, and there such a sign ends
  whatever could be read further.

  The place where a reader starts is the number of groups around it, and it
  moves to another place as groups open and close.  Both facts about a reader,
  that what it takes leads from the one place to the other and that it does not
  depend on what follows, pass from the parts of a reader to the whole.
-/
import NumberedMelody.Proofs.Grammar.Laws

namespace NumberedMelody.Reader

open Text (isSeparator)

/-! ### Places in a pattern -/

/-- Where a character stands: inside so many groups, or inside braces in them. -/
inductive Place where
  | inGroups (depth : Nat)
  | inBraces (depth : Nat)

namespace Place

/-- The place after a character.  No sign counts in braces but the one that
    ends them.  A group ends only where one has begun, and colons and commas
    stand inside groups. -/
def step : Place → Char → Option Place
  | inBraces depth, c => some (if c = '\x7d' then inGroups depth else inBraces depth)
  | inGroups depth, c =>
    if c ∈ ['(', '[', '<'] then some (inGroups (depth + 1))
    else if c = '\x7b' then some (inBraces depth)
    else
      match depth with
      | 0 => if c ∈ [')', ']', '>', ':', ','] then none else some (inGroups 0)
      | depth + 1 => some (inGroups (if c ∈ [')', ']', '>'] then depth else depth + 1))

def after (place : Place) (text : List Char) : Option Place := text.foldlM step place

theorem after_cons (place : Place) (c : Char) (text : List Char) :
    place.after (c :: text) = (place.step c).bind fun next => next.after text := rfl

theorem after_append {place next : Place} {front : List Char} (h : place.after front = some next)
    (text : List Char) : place.after (front ++ text) = next.after text := by
  unfold after at h ⊢
  rw [List.foldlM_append, h]
  rfl

theorem after_of_step {place : Place} {text : List Char} (h : ∀ c ∈ text, place.step c = some place) :
    place.after text = some place := by
  induction text with
  | nil => rfl
  | cons c text ih =>
    rw [after_cons, h c List.mem_cons_self]
    exact ih fun d hd => h d (List.mem_cons_of_mem c hd)

/-- The signs that places depend on, and the separators. -/
def signs : List Char := ['(', ')', '[', ']', '<', '>', '\x7b', '\x7d', ':', ',', ' ', '\t', '\r', '\n']

theorem step_of_notMem {c : Char} (h : c ∉ signs) (place : Place) : place.step c = some place := by
  simp only [signs, List.mem_cons, not_or] at h
  cases place with
  | inBraces depth => simp [step, h]
  | inGroups depth => cases depth <;> simp [step, h]

end Place

/-! ### What may follow a text -/

/-- What a text may be followed by: the sign that opens a group, or one that
    closes it or separates items. -/
inductive Stops where
  | opening
  | closing

def Stops.signs : Stops → List Char
  | opening => ['(', '[']
  | closing => [')', ']', ' ', '\t', '\r', '\n']

theorem Stops.signs_subset (stops : Stops) : stops.signs ⊆ Place.signs := by
  cases stops <;> decide

theorem mem_signs_of_isSeparator {c : Char} (h : isSeparator c = true) : c ∈ Stops.closing.signs := by
  simp only [isSeparator, Bool.or_eq_true, beq_iff_eq, or_assoc] at h
  rcases h with rfl | rfl | rfl | rfl <;> decide

/-- The text closes every group that is open at its place, and more follows from
    a stop sign on.  A separator follows no other separator. -/
structure Meets (stops : Stops) (place : Place) (text more : List Char) : Prop where
  whole : place.after text = some (.inGroups 0)
  follows : ∃ sign ∈ stops.signs, ∃ others, more = sign :: others ∧
    (isSeparator sign = true → ∀ c ∈ text.getLast?, isSeparator c = false)

variable {α β : Type} {stops : Stops} {place next : Place} {p : Reader α} {text rest more : List Char}

theorem Meets.from {front : List Char} (h : Meets stops place (front ++ rest) more)
    (hfront : place.after front = some next) : Meets stops next rest more where
  whole := by
    rw [← Place.after_append hfront]
    exact h.whole
  follows := by
    obtain ⟨sign, hsign, others, rfl, hlast⟩ := h.follows
    refine ⟨sign, hsign, others, rfl, fun hseparator c hc => hlast hseparator c ?_⟩
    rw [List.getLast?_append, Option.mem_def.mp hc]
    rfl

theorem Meets.at_end (h : Meets stops place [] more) : place = .inGroups 0 := Option.some.inj h.whole

/-! ### Steady readers -/

/-- The same result, with more text after the rest. -/
def followedBy (more : List Char) : α × List Char → α × List Char := fun (a, rest) => (a, rest ++ more)

/-- What the reader takes leads from one place to another, and the reader takes
    the same from a whole text whether or not more follows at a stop sign. -/
class Steady (stops : Stops) (place : Place) (next : outParam Place) (p : Reader α) : Prop where
  leads : ∀ {text a rest}, p text = some (a, rest) → ∃ front, text = front ++ rest ∧ place.after front = some next
  append : ∀ {text more}, Meets stops place text more → p (text ++ more) = (p text).map (followedBy more)

theorem taken_from (stops : Stops) (place : Place) [Steady stops place next p] {a : α}
    (h : p text = some (a, rest)) : ∃ front, text = front ++ rest ∧ place.after front = some next :=
  Steady.leads stops h

theorem Meets.along [Steady stops place next p] {a : α} (hp : p text = some (a, rest))
    (h : Meets stops place text more) : Meets stops next rest more := by
  obtain ⟨front, rfl, hfront⟩ := taken_from stops place hp
  exact h.from hfront

instance (a : α) : Steady stops place place (pure a : Reader α) where
  leads h := ⟨[], (pure_eq_some.mp h).2, rfl⟩
  append _ := rfl

instance Steady.bind {mid : Place} [Steady stops place mid p] {f : α → Reader β} [∀ a, Steady stops mid next (f a)] :
    Steady stops place next (p >>= f) where
  leads h := by
    obtain ⟨a, text', hp, hf⟩ := bind_eq_some.mp h
    obtain ⟨front, rfl, hfront⟩ := taken_from stops place hp
    obtain ⟨front', rfl, hfront'⟩ := taken_from stops mid hf
    exact ⟨front ++ front', (List.append_assoc _ _ _).symm, (Place.after_append hfront front').trans hfront'⟩
  append {text more} h := by
    show Reader.bind p f _ = (Reader.bind p f _).map _
    unfold Reader.bind
    rw [Steady.append (p := p) h]
    cases hp : p text with
    | none => rfl
    | some pair => exact Steady.append (p := f pair.1) (h.along (p := p) hp)

instance [Steady stops place next p] (f : α → β) : Steady stops place next (f <$> p) :=
  inferInstanceAs (Steady stops place next (p >>= fun a => pure (f a)))

instance [Steady stops place next p] (f : α → Option β) : Steady stops place next (mapSome f p) where
  leads h := by
    obtain ⟨a, hp, -⟩ := mapSome_eq_some.mp h
    exact Steady.leads stops hp
  append {text more} h := by
    unfold mapSome
    rw [Steady.append (p := p) h]
    cases p text with
    | none => rfl
    | some pair =>
      obtain ⟨a, rest⟩ := pair
      cases hf : f a <;> simp [followedBy, hf]

instance [Steady stops place next p] (test : α → Bool) : Steady stops place next (verify test p) :=
  inferInstanceAs (Steady stops place next (mapSome _ p))

instance : Steady stops place place (firstOf ([] : List (Reader α))) where
  leads h := by cases h
  append _ := rfl

instance {alternatives : List (Reader α)} [Steady stops place next p]
    [Steady stops place next (firstOf alternatives)] : Steady stops place next (firstOf (p :: alternatives)) where
  leads h := by
    rcases firstOf_cons_eq_some.mp h with hp | ⟨-, hmore⟩
    · exact Steady.leads stops hp
    · exact Steady.leads stops hmore
  append {text more} h := by
    simp only [firstOf, Steady.append (p := p) h, Steady.append (p := firstOf alternatives) h]
    cases p text <;> rfl

instance [Steady stops place place p] : Steady stops place place (optional p) where
  leads h := by
    rcases optional_eq_some.mp h with ⟨b, hp, -⟩ | ⟨-, -, rfl⟩
    · exact Steady.leads stops hp
    · exact ⟨[], rfl, rfl⟩
  append {text more} h := by
    unfold optional
    rw [Steady.append (p := p) h]
    cases p text <;> rfl

instance [Steady stops place place p] : Steady stops place place (many p) where
  leads h := by
    apply many_induction (p := p)
      (motive := fun text _ rest => ∃ front, text = front ++ rest ∧ place.after front = some place) _ _ h
    · intro text _
      exact ⟨[], rfl, rfl⟩
    · rintro text a mid more rest hp - ⟨front', rfl, hfront'⟩
      obtain ⟨front, rfl, hfront⟩ := taken_from stops place hp
      exact ⟨front ++ front', (List.append_assoc _ _ _).symm, (Place.after_append hfront front').trans hfront'⟩
  append {text more} h := by
    induction hn : text.length using Nat.strongRecOn generalizing text with
    | ind n ih =>
      rw [many_eq, many_eq p text, Steady.append (p := p) h]
      cases hp : p text with
      | none => rfl
      | some pair =>
        obtain ⟨a, mid⟩ := pair
        simp only [Option.map_some, followedBy, List.length_append, Nat.add_lt_add_iff_right]
        by_cases hshorter : mid.length < text.length
        · simp only [if_pos hshorter]
          rw [ih mid.length (by omega) (h.along (p := p) hp) rfl]
          cases many p mid <;> rfl
        · simp only [if_neg hshorter, Option.map_none]

instance [Steady stops place place p] : Steady stops place place (many1 p) := by
  unfold many1
  infer_instance

theorem consumed_append [Lossless p] (h : p (text ++ more) = (p text).map (followedBy more)) :
    consumed p (text ++ more) = (consumed p text).map (followedBy more) := by
  unfold consumed
  rw [h]
  cases hp : p text with
  | none => rfl
  | some pair =>
    obtain ⟨a, rest⟩ := pair
    obtain ⟨front, rfl⟩ := Lossless.suffix hp
    simp [followedBy]

instance [Steady stops place next p] : Steady stops place next (consumed p) where
  leads {text taken rest} h := by
    unfold consumed at h
    split at h
    · cases h
    · rename_i a rest' hp
      obtain ⟨-, rfl⟩ := Prod.mk.inj (Option.some.inj h)
      exact Steady.leads stops hp
  append h := by
    have : Lossless p := by
      constructor
      intro text a rest hp
      obtain ⟨front, rfl, -⟩ := taken_from stops place hp
      exact List.suffix_append _ _
    exact consumed_append (Steady.append h)

/-- A reader that goes only as deep as the text is long is steady if it is so to
    every depth. -/
theorem steady_of_levels {upTo : Nat → Reader α} (level : Nat → Nat)
    (hsteady : ∀ depth, Steady stops place next (upTo depth))
    (h : ∀ text depth, level text.length ≤ depth → p text = upTo depth text) : Steady stops place next p where
  leads {text a rest} hp := by
    rw [h text _ (Nat.le_refl _)] at hp
    exact (hsteady _).leads hp
  append {text more} hmeets := by
    have hdepth := Nat.le_max_left (level (text ++ more).length) (level text.length)
    have hdepth' := Nat.le_max_right (level (text ++ more).length) (level text.length)
    rw [h _ _ hdepth, h _ _ hdepth', (hsteady _).append hmeets]

/-! ### Characters -/

/-- A character that passes the test leads from one place to another, and none
    that passes it is a stop sign. -/
class Crosses (stops : Stops) (place : Place) (next : outParam Place) (test : Char → Bool) : Prop where
  steps : ∀ {c}, test c = true → place.step c = some next
  avoids : place = .inGroups 0 → ∀ sign ∈ stops.signs, test sign = false

instance {test : Char → Bool} [Crosses stops place next test] : Steady stops place next (satisfy test) where
  leads {_ c _} h := by
    obtain ⟨rfl, hc⟩ := satisfy_eq_some.mp h
    refine ⟨[c], rfl, ?_⟩
    rw [Place.after_cons, Crosses.steps stops hc]
    rfl
  append {text more} h := by
    cases text with
    | nil =>
      obtain ⟨sign, hsign, others, rfl, -⟩ := h.follows
      simp [satisfy, Crosses.avoids h.at_end sign hsign]
    | cons c text =>
      simp only [List.cons_append, satisfy]
      by_cases hc : test c = true
      · simp only [if_pos hc, Option.map_some, followedBy]
      · simp only [if_neg hc, Option.map_none]

instance (c : Char) [Crosses stops place next (· == c)] : Steady stops place next (char c) :=
  inferInstanceAs (Steady stops place next (satisfy _))

instance (chars : String) [Crosses stops place next chars.toList.contains] :
    Steady stops place next (oneOf chars) :=
  inferInstanceAs (Steady stops place next (satisfy _))

theorem run1_append {test : Char → Bool} (h : (∃ c ∈ text, test c = false) ∨ ∀ c ∈ more.head?, test c = false) :
    run1 test (text ++ more) = (run1 test text).map (followedBy more) := by
  have hspan : (text ++ more).takeWhile test = text.takeWhile test ∧
      (text ++ more).dropWhile test = text.dropWhile test ++ more := by
    induction text with
    | nil =>
      rcases h with ⟨c, hc, -⟩ | h
      · cases hc
      · cases more with
        | nil => exact ⟨rfl, rfl⟩
        | cons c more => simp [h c rfl]
    | cons c text ih =>
      cases hc : test c with
      | false => simp [hc]
      | true =>
        have := ih (h.imp_left ?_)
        · simp [hc, this]
        · rintro ⟨d, hd, hfails⟩
          rcases List.mem_cons.mp hd with rfl | hd
          · rw [hc] at hfails
            cases hfails
          · exact ⟨d, hd, hfails⟩
  unfold run1
  rw [hspan.1, hspan.2]
  cases text.takeWhile test <;> rfl

theorem run1_leads {test : Char → Bool} (hsteps : ∀ {c}, test c = true → place.step c = some place)
    {taken : List Char} (h : run1 test text = some (taken, rest)) :
    ∃ front, text = front ++ rest ∧ place.after front = some place := by
  unfold run1 at h
  split at h
  · cases h
  · obtain ⟨-, rfl⟩ := Prod.mk.inj (Option.some.inj h)
    refine ⟨text.takeWhile test, List.takeWhile_append_dropWhile.symm, Place.after_of_step ?_⟩
    intro c hc
    exact hsteps (List.all_eq_true.mp List.all_takeWhile c hc)

instance {test : Char → Bool} [Crosses stops place place test] : Steady stops place place (run1 test) where
  leads h := run1_leads (Crosses.steps stops) h
  append {text more} h := by
    apply run1_append
    -- outside all groups the stop sign ends the run; elsewhere the group around it does, which the text closes
    by_cases hplace : place = .inGroups 0
    · obtain ⟨sign, hsign, others, rfl, -⟩ := h.follows
      right
      rintro c ⟨⟩
      exact Crosses.avoids hplace sign hsign
    · left
      apply Classical.byContradiction
      intro hnone
      apply hplace
      have hall : ∀ c ∈ text, place.step c = some place := by
        intro c hc
        cases htest : test c with
        | true => exact Crosses.steps stops htest
        | false => exact absurd ⟨c, hc, htest⟩ hnone
      exact Option.some.inj ((Place.after_of_step hall).symm.trans h.whole)

instance : Steady stops place place (exactly []) :=
  inferInstanceAs (Steady stops place place (pure ()))

instance {mid : Place} {c : Char} {chars : List Char} [Steady stops place mid (char c)]
    [Steady stops mid next (exactly chars)] : Steady stops place next (exactly (c :: chars)) :=
  inferInstanceAs (Steady stops place next (char c >>= fun _ => exactly chars))

instance {inside inside' : Place} {opening closing : Char} [Steady stops place inside (char opening)]
    [Steady stops inside inside' p] [Steady stops inside' next (char closing)] :
    Steady stops place next (between opening closing p) := by
  unfold between
  infer_instance

/-! ### Tests that pass no sign, and the signs themselves -/

/-- No sign passes the test. -/
class Plain (test : Char → Bool) : Prop where
  avoids : Place.signs.any test = false

instance {test : Char → Bool} [Plain test] : Crosses stops place place test where
  steps {c} hc := by
    apply Place.step_of_notMem
    intro hsign
    exact absurd hc (List.any_eq_false.mp Plain.avoids c hsign)
  avoids _ sign hsign := Bool.eq_false_iff.mpr (List.any_eq_false.mp Plain.avoids sign (stops.signs_subset hsign))

theorem crosses_char {c : Char} (hstep : place.step c = some next)
    (hstops : place = .inGroups 0 → c ∉ stops.signs) : Crosses stops place next (· == c) where
  steps h := by
    obtain rfl := beq_iff_eq.mp h
    exact hstep
  avoids hplace sign hsign := by
    apply beq_false_of_ne
    rintro rfl
    exact hstops hplace hsign

section Signs

variable {depth : Nat}

instance : Crosses .closing (.inGroups depth) (.inGroups (depth + 1)) (· == '(') :=
  crosses_char (by simp [Place.step]) fun _ => by decide

instance : Crosses .closing (.inGroups depth) (.inGroups (depth + 1)) (· == '[') :=
  crosses_char (by simp [Place.step]) fun _ => by decide

instance : Crosses stops (.inGroups depth) (.inGroups (depth + 1)) (· == '<') :=
  crosses_char (by simp [Place.step]) fun _ => by cases stops <;> decide

instance : Crosses stops (.inGroups (depth + 1)) (.inGroups depth) (· == ')') :=
  crosses_char (by simp [Place.step]) nofun

instance : Crosses stops (.inGroups (depth + 1)) (.inGroups depth) (· == ']') :=
  crosses_char (by simp [Place.step]) nofun

instance : Crosses stops (.inGroups (depth + 1)) (.inGroups depth) (· == '>') :=
  crosses_char (by simp [Place.step]) nofun

instance : Crosses stops (.inGroups (depth + 1)) (.inGroups (depth + 1)) (· == ':') :=
  crosses_char (by simp [Place.step]) nofun

instance : Crosses stops (.inGroups (depth + 1)) (.inGroups (depth + 1)) (· == ',') :=
  crosses_char (by simp [Place.step]) nofun

instance : Crosses stops (.inGroups depth) (.inBraces depth) (· == '\x7b') :=
  crosses_char (by simp [Place.step]) fun _ => by cases stops <;> decide

instance : Crosses stops (.inBraces depth) (.inGroups depth) (· == '\x7d') :=
  crosses_char (by simp [Place.step]) nofun

theorem step_separator {c : Char} (h : isSeparator c = true) :
    (Place.inGroups depth).step c = some (.inGroups depth) := by
  simp only [isSeparator, Bool.or_eq_true, beq_iff_eq, or_assoc] at h
  rcases h with rfl | rfl | rfl | rfl <;> cases depth <;> rfl

instance : Crosses stops (.inGroups (depth + 1)) (.inGroups (depth + 1)) isSeparator where
  steps := step_separator
  avoids := nofun

theorem crosses_inBraces {test : Char → Bool} (h : test '\x7d' = false) :
    Crosses stops (.inBraces depth) (.inBraces depth) test where
  steps {c} hc := by
    have hne : c ≠ '\x7d' := by
      rintro rfl
      rw [hc] at h
      cases h
    simp only [Place.step, if_neg hne]
  avoids := nofun

instance : Crosses stops (.inBraces depth) (.inBraces depth) (· == '(') := crosses_inBraces (by decide)

instance : Crosses stops (.inBraces depth) (.inBraces depth) (· == ')') := crosses_inBraces (by decide)

instance : Crosses stops (.inBraces depth) (.inBraces depth) (· == '<') := crosses_inBraces (by decide)

instance : Crosses stops (.inBraces depth) (.inBraces depth) (· == '>') := crosses_inBraces (by decide)

instance : Crosses stops (.inBraces depth) (.inBraces depth) (· == ':') := crosses_inBraces (by decide)

instance : Crosses stops (.inBraces depth) (.inBraces depth) isSeparator := crosses_inBraces (by decide)

end Signs

end NumberedMelody.Reader
