/-
  NumberedMelody/Proofs/Grammar/Juxtaposition.lean
  ================================================
  **Patterns are read part by part.**  Items that cover a text close every group
  that they open, so what follows the text is read on its own
  (`items_append`).  Two patterns with separators between them are read as the
  nodes of the one, a blank, and the nodes of the other, and a pattern in round
  or in square brackets as one list or one subdivision of its nodes
  (`patterns_compose`).
-/
import NumberedMelody.Proofs.Grammar.SteadyItems

namespace NumberedMelody

open Reader
open Text (isSeparator)

namespace Grammar

/-! ### Patterns side by side -/

section Patterns

variable {text more : List Char} {nodes : List Node}

theorem items_of_none (h : item text = none) : items text = some ([], text) := many_of_none h

theorem items_cons {node : Node} {rest : List Char} (h : item text = some (node, rest)) :
    items text = (items rest).map fun (nodes, rest) => (node :: nodes, rest) :=
  many_cons h

/-- Items that cover a text close every group that they open. -/
theorem whole_of_items (h : items text = some (nodes, [])) :
    (Place.inGroups 0).after text = some (.inGroups 0) := by
  apply many_induction (p := item)
    (motive := fun text _ rest => rest = [] → (Place.inGroups 0).after text = some (.inGroups 0)) _ _ h rfl
  · rintro text - rfl
    rfl
  · intro text node mid more rest hnode _ ih hrest
    obtain ⟨front, rfl, hfront⟩ := item_leads hnode
    rw [Place.after_append hfront]
    exact ih hrest

/-- **What follows a pattern is read on its own.** -/
theorem items_append (h : items text = some (nodes, [])) (hmeets : Meets .closing (.inGroups 0) text more) :
    items (text ++ more) = (items more).map fun (others, rest) => (nodes ++ others, rest) := by
  apply many_induction (p := item)
    (motive := fun text nodes rest => rest = [] → Meets .closing (.inGroups 0) text more →
      items (text ++ more) = (items more).map fun (others, rest) => (nodes ++ others, rest)) _ _ h rfl hmeets
  · rintro text - rfl -
    rw [List.nil_append]
    cases items more <;> rfl
  -- the text is not empty where an item is read, and what is left of it stays whole
  · intro text node mid nodes rest hnode hshorter ih hrest hmeets
    have hne : text ≠ [] := by
      rintro rfl
      exact Nat.not_lt_zero _ hshorter
    obtain ⟨front, hsplit, hfront⟩ := item_leads hnode
    have hmid : Meets .closing (.inGroups 0) mid more := (hsplit ▸ hmeets).from hfront
    have hfirst : item (text ++ more) = some (node, mid ++ more) := by
      rw [item_append hne hmeets, hnode]
      rfl
    rw [items_cons hfirst, ih hrest hmid]
    cases items more <;> rfl

/-- Separators in front of a pattern are read as one blank. -/
theorem items_of_separators {run : List Char} (hne : run ≠ []) (hrun : ∀ c ∈ run, isSeparator c = true)
    (htext : ∀ c ∈ text.head?, isSeparator c = false) :
    items (run ++ text) = (items text).map fun (nodes, rest) => (.blank (String.ofList run) :: nodes, rest) := by
  have hseparators : separators (run ++ text) = some (run, text) := by
    have htake : text.takeWhile isSeparator = [] ∧ text.dropWhile isSeparator = text := by
      cases text with
      | nil => exact ⟨rfl, rfl⟩
      | cons c text => simp [htext c rfl]
    show run1 isSeparator _ = _
    rw [run1, List.takeWhile_append_of_pos hrun, List.dropWhile_append_of_pos hrun, htake.1, htake.2, List.append_nil]
    cases run with
    | nil => exact absurd rfl hne
    | cons c run => rfl
  have hblank : blank (run ++ text) = some (.blank (String.ofList run), text) :=
    map_eq_some.mpr ⟨(String.ofList run, run), consumed_eq_some.mpr ⟨by simp, hseparators⟩, rfl⟩
  have hfirst : item (run ++ text) = some (.blank (String.ofList run), text) := by
    rw [item_eq, itemOver_apply, hblank]
  exact items_cons hfirst

/-- **Patterns with separators between them are read side by side.** -/
theorem items_side_by_side {run other : List Char} {others : List Node} (h : items text = some (nodes, []))
    (hother : items other = some (others, [])) (hend : ∀ c ∈ text.getLast?, isSeparator c = false)
    (hstart : ∀ c ∈ other.head?, isSeparator c = false) (hne : run ≠ []) (hrun : ∀ c ∈ run, isSeparator c = true) :
    items (text ++ (run ++ other)) = some (nodes ++ .blank (String.ofList run) :: others, []) := by
  obtain ⟨c, more, rfl⟩ := List.exists_cons_of_ne_nil hne
  have hmeets : Meets .closing (.inGroups 0) text (c :: more ++ other) :=
    ⟨whole_of_items h, c, mem_signs_of_isSeparator (hrun c List.mem_cons_self), more ++ other, rfl, fun _ => hend⟩
  rw [items_append h hmeets, items_of_separators hne hrun hstart, hother]
  rfl

/-! ### Patterns in brackets -/

/-- Items end before a sign that closes a group. -/
theorem items_before_closing {closing : Char} (hclosing : closing = ')' ∨ closing = ']')
    (h : items text = some (nodes, [])) :
    Meets .closing (.inGroups 0) text [closing] ∧ items (text ++ [closing]) = some (nodes, [closing]) := by
  have hstop : closing ∈ Stops.closing.signs := by rcases hclosing with rfl | rfl <;> decide
  have hseparator : isSeparator closing = false := by rcases hclosing with rfl | rfl <;> decide
  have hfollows : ∀ text, ∃ sign ∈ Stops.closing.signs, ∃ others, [closing] = sign :: others ∧
      (isSeparator sign = true → ∀ c ∈ List.getLast? text, isSeparator c = false) := by
    intro text
    refine ⟨closing, hstop, [], rfl, ?_⟩
    rw [hseparator]
    nofun
  have hmeets : Meets .closing (.inGroups 0) text [closing] := ⟨whole_of_items h, hfollows text⟩
  have hblank : blank [closing] = none := by
    have hisSome := blank_isSome closing []
    rwa [hseparator, Option.isSome_eq_false_iff, Option.isNone_iff_eq_none] at hisSome
  have hnone : item [closing] = none := by
    rw [item_eq, itemOver_apply, hblank]
    exact solid_of_meets ⟨rfl, hfollows []⟩
  refine ⟨hmeets, ?_⟩
  rw [items_append h hmeets, items_of_none hnone]
  simp only [Option.map_some, List.append_nil]

/-- Marks end where a group opens. -/
theorem marks_append {opening : Char} (h : opening = '(' ∨ opening = '[') {front : List Char} {overrides : Overrides}
    (hmarks : marks front = some (overrides, [])) (text : List Char) :
    marks (front ++ opening :: text) = some (overrides, opening :: text) := by
  obtain ⟨taken, hsplit, htaken⟩ := taken_from .opening (.inGroups 0) hmarks
  have hseparator : isSeparator opening = false := by rcases h with rfl | rfl <;> decide
  have hmeets : Meets .opening (.inGroups 0) front (opening :: text) := by
    rw [hsplit, List.append_nil]
    refine ⟨htaken, opening, by simpa [Stops.signs] using h, text, rfl, fun hsign => ?_⟩
    rw [hseparator] at hsign
    cases hsign
  rw [Steady.append (p := marks) hmeets, hmarks]
  rfl

theorem marks_before_opening {opening : Char} (h : opening = '(' ∨ opening = '[') (text : List Char) :
    marks (opening :: text) = some ({}, opening :: text) := by
  have hnone : marks [] = some ({}, []) := rfl
  exact marks_append h hnone text

theorem group_of_items {opening closing : Char} (hopening : opening = '(' ∨ opening = '[')
    (h : items (text ++ [closing]) = some (nodes, [closing])) :
    (do
      let overrides ← marks
      let values ← between opening closing (many item)
      return (overrides, values) : Reader (Overrides × List Node)) (opening :: (text ++ [closing])) =
        some (({}, nodes), []) := by
  apply bind_eq_some.mpr
  refine ⟨{}, opening :: (text ++ [closing]), marks_before_opening hopening _, bind_eq_some.mpr ?_⟩
  exact ⟨nodes, [], between_eq_some.mpr ⟨_, rfl, h⟩, rfl⟩

theorem list_of_items (h : items (text ++ [')']) = some (nodes, [')'])) :
    list item ('(' :: (text ++ [')'])) =
      some (.sequence (String.ofList ('(' :: (text ++ [')']))) {} true nodes, []) := by
  apply bind_eq_some.mpr
  refine ⟨(String.ofList _, {}, nodes), [], consumed_eq_some.mpr ⟨?_, group_of_items (.inl rfl) h⟩, rfl⟩
  rw [String.toList_ofList, List.append_nil]

theorem subdivision_of_items (h : items (text ++ [']']) = some (nodes, [']'])) :
    subdivision item ('[' :: (text ++ [']'])) =
      some (.subdivision (String.ofList ('[' :: (text ++ [']']))) {} nodes, []) := by
  apply bind_eq_some.mpr
  refine ⟨(String.ofList _, {}, nodes), [], consumed_eq_some.mpr ⟨?_, group_of_items (.inr rfl) h⟩, rfl⟩
  rw [String.toList_ofList, List.append_nil]

theorem listLike_of_list {left : Node} (h : list item text = some (left, [])) :
    listLike item text = some (left, []) := by
  -- neither a rhythm nor an operation is left to be read
  have htail : listTail item [] = some (.steps [], []) := rfl
  apply bind_eq_some.mpr
  refine ⟨(String.ofList text, left, .steps []), [], consumed_eq_some.mpr ⟨by simp, ?_⟩, rfl⟩
  exact bind_eq_some.mpr ⟨left, [], h, bind_eq_some.mpr ⟨.steps [], [], htail, rfl⟩⟩

/-- A text that stands alone starts with no sign that belongs inside groups. -/
theorem head_of_whole {c : Char} (h : (Place.inGroups 0).after (c :: text) = some (.inGroups 0)) :
    c ≠ ':' ∧ c ≠ ',' := by
  constructor
  · rintro rfl
    cases h
  · rintro rfl
    cases h

/-- After a part of a pattern in brackets stands the closing sign, or no sign that
    belongs inside groups. -/
theorem next_of_meets {α : Type} {p : Reader α} [Steady .closing (.inGroups 0) (.inGroups 0) p] {closing c : Char}
    {a : α} {rest : List Char} (hmeets : Meets .closing (.inGroups 0) text (closing :: more))
    (h : p (text ++ closing :: more) = some (a, c :: rest)) : c = closing ∨ (c ≠ ':' ∧ c ≠ ',') := by
  rw [Steady.append (p := p) hmeets] at h
  cases halone : p text with
  | none =>
    rw [halone] at h
    cases h
  | some pair =>
    obtain ⟨b, unread⟩ := pair
    rw [halone] at h
    have hsplit : unread ++ closing :: more = c :: rest := (Prod.mk.inj (Option.some.inj h)).2
    cases unread with
    | nil => exact .inl (List.cons.inj hsplit).1.symm
    | cons d unread =>
      obtain ⟨rfl, -⟩ := List.cons.inj hsplit
      exact .inr (head_of_whole (hmeets.along (p := p) halone).whole)

/-- A pattern in brackets is no repeat: no colon follows the opening sign. -/
theorem repetition_of_meets (opening : Char) {closing : Char} (replayed : Bool) (hclosing : closing ≠ ':')
    (hmeets : Meets .closing (.inGroups 0) text (closing :: more)) :
    repetition item opening closing replayed (opening :: (text ++ closing :: more)) = none := by
  cases hread : repetition item opening closing replayed (opening :: (text ++ closing :: more)) with
  | none => rfl
  | some pair =>
    obtain ⟨node, rest⟩ := pair
    obtain ⟨⟨taken, _⟩, mid, hconsumed, -⟩ := bind_eq_some.mp hread
    obtain ⟨⟨⟩, inside, hopening, -⟩ := bind_eq_some.mp (consumed_eq_some.mp hconsumed).2
    have hinside : (pure () : Reader Unit) (text ++ closing :: more) = some ((), ':' :: inside) :=
      pure_eq_some.mpr ⟨rfl, (List.cons.inj (exactly_eq_some.mp hopening)).2⟩
    rcases next_of_meets hmeets hinside with rfl | ⟨hcolon, -⟩
    · exact absurd rfl hclosing
    · exact absurd rfl hcolon

/-- A pattern in round brackets is no pair of bounds: no comma follows the first. -/
theorem randomInteger_of_meets {front : List Char} {overrides : Overrides}
    (hmarks : marks front = some (overrides, [])) (hmeets : Meets .closing (.inGroups 0) text (')' :: more)) :
    randomInteger (front ++ '(' :: (text ++ ')' :: more)) = none := by
  cases hread : randomInteger (front ++ '(' :: (text ++ ')' :: more)) with
  | none => rfl
  | some pair =>
    obtain ⟨node, rest⟩ := pair
    obtain ⟨⟨taken, _⟩, mid, hconsumed, -⟩ := bind_eq_some.mp hread
    obtain ⟨_, afterMarks, hmarked, hbounds⟩ := bind_eq_some.mp (consumed_eq_some.mp hconsumed).2
    rw [marks_append (.inl rfl) hmarks] at hmarked
    obtain ⟨-, rfl⟩ := Prod.mk.inj (Option.some.inj hmarked)
    obtain ⟨bounds, afterBounds, hbetween, -⟩ := bind_eq_some.mp hbounds
    obtain ⟨inside, hopening, hinside⟩ := between_eq_some.mp hbetween
    obtain rfl := (List.cons.inj hopening).2
    obtain ⟨first, afterFirst, hfirst, hcomma⟩ := bind_eq_some.mp hinside
    obtain ⟨_, afterComma, hsign, -⟩ := bind_eq_some.mp hcomma
    obtain ⟨rfl, -⟩ := char_eq_some.mp hsign
    rcases next_of_meets hmeets hfirst with hclosing | ⟨-, hcomma⟩
    · cases hclosing
    · exact absurd rfl hcomma

/-- What starts with a square bracket is neither a pair of bounds nor a list. -/
theorem unread_at_square (text : List Char) :
    randomInteger ('[' :: text) = none ∧ listLike item ('[' :: text) = none := by
  have hmarks := marks_before_opening (.inr rfl) text
  constructor
  · simp [randomInteger, consumed, bind, Reader.bind, hmarks, between, char, satisfy]
  · simp [listLike, list, consumed, bind, Reader.bind, hmarks, between, char, satisfy]

theorem items_of_item {node : Node} (h : item text = some (node, [])) : items text = some ([node], []) := by
  have hnil : item [] = none := by
    rw [item_eq, itemOver_apply]
    exact solid_nil
  rw [items_cons h, items_of_none hnil]
  rfl

theorem unread_at_opening {opening : Char} (h : opening = '(' ∨ opening = '[') (text : List Char) :
    bar (opening :: text) = none ∧ assignment item (opening :: text) = none ∧
      together (opening :: text) = none ∧ variableUse (opening :: text) = none := by
  rcases h with rfl | rfl
  · exact ⟨rfl, rfl, rfl, rfl⟩
  · exact ⟨rfl, rfl, rfl, rfl⟩

/-- **A pattern in round brackets is read as a list of its nodes.** -/
theorem items_in_round (h : items text = some (nodes, [])) :
    items ('(' :: (text ++ [')'])) =
      some ([.sequence (String.ofList ('(' :: (text ++ [')']))) {} true nodes], []) := by
  obtain ⟨hmeets, hinside⟩ := items_before_closing (.inl rfl) h
  obtain ⟨hbar, hassignment, htogether, hvariable⟩ := unread_at_opening (.inl rfl) (text ++ [')'])
  have hreplayed : repetition item '[' ']' true ('(' :: (text ++ [')'])) = none := rfl
  have hrepetition := repetition_of_meets '(' false (by decide) hmeets
  have hmarks : marks [] = some ({}, []) := rfl
  have hbounds := randomInteger_of_meets hmarks hmeets
  rw [List.nil_append] at hbounds
  have hlist := listLike_of_list (list_of_items hinside)
  apply items_of_item
  rw [item_eq, itemOver_apply]
  show solid item _ = _
  simp only [solid, firstOf, hbar, hassignment, htogether, hvariable, hreplayed, hrepetition, hbounds, hlist]

/-- **A pattern in square brackets is read as a subdivision of its nodes.** -/
theorem items_in_square (h : items text = some (nodes, [])) :
    items ('[' :: (text ++ [']'])) =
      some ([.subdivision (String.ofList ('[' :: (text ++ [']']))) {} nodes], []) := by
  obtain ⟨hmeets, hinside⟩ := items_before_closing (.inr rfl) h
  obtain ⟨hbar, hassignment, htogether, hvariable⟩ := unread_at_opening (.inr rfl) (text ++ [']'])
  have hreplayed := repetition_of_meets '[' true (by decide) hmeets
  have hrepetition : repetition item '(' ')' false ('[' :: (text ++ [']'])) = none := rfl
  obtain ⟨hbounds, hlist⟩ := unread_at_square (text ++ [']'])
  have hsubdivision := subdivision_of_items hinside
  apply items_of_item
  rw [item_eq, itemOver_apply]
  show solid item _ = _
  simp only [solid, firstOf, hbar, hassignment, htogether, hvariable, hreplayed, hrepetition, hbounds, hlist,
    hsubdivision]

end Patterns

end Grammar

/-- **Patterns are read part by part.**  A pattern that can be read and does not
    end with a separator, separators, and another that does not start with one
    are read as the nodes of the one, a blank, and the nodes of the other.  In
    round brackets a pattern is read as one list, in square ones as one
    subdivision of its nodes. -/
theorem patterns_compose {a : String} {na : List Node} (ha : readPattern a = .ok na) :
    (∀ run b nb, readPattern b = .ok nb →
        (∀ c ∈ a.toList.getLast?, isSeparator c = false) → (∀ c ∈ b.toList.head?, isSeparator c = false) →
        run ≠ "" → (∀ c ∈ run.toList, isSeparator c = true) →
          readPattern (a ++ run ++ b) = .ok (na ++ [.blank run] ++ nb)) ∧
      readPattern ("(" ++ a ++ ")") = .ok [.sequence ("(" ++ a ++ ")") {} true na] ∧
      readPattern ("[" ++ a ++ "]") = .ok [.subdivision ("[" ++ a ++ "]") {} na] := by
  rw [readPattern_eq_ok] at ha
  refine ⟨?_, ?_, ?_⟩
  · intro run b nb hb hend hstart hne hrun
    rw [readPattern_eq_ok] at hb ⊢
    have hne' : run.toList ≠ [] := by
      intro hnil
      exact hne (String.toList_inj.mp hnil)
    have hread := Grammar.items_side_by_side ha hb hend hstart hne' hrun
    rw [String.ofList_toList] at hread
    simpa using hread
  · have htext : "(" ++ a ++ ")" = String.ofList ('(' :: (a.toList ++ [')'])) := by
      apply String.toList_inj.mp
      simp
    rw [readPattern_eq_ok, htext, String.toList_ofList]
    exact Grammar.items_in_round ha
  · have htext : "[" ++ a ++ "]" = String.ofList ('[' :: (a.toList ++ [']'])) := by
      apply String.toList_inj.mp
      simp
    rw [readPattern_eq_ok, htext, String.toList_ofList]
    exact Grammar.items_in_square ha

/-- An assignment before two variables at once, and in round brackets. -/
theorem assignment_and_variables_compose :
    readPattern ("A=r" ++ "\t " ++ "AB") =
        .ok ([.assignment "A=r" "A" false (.event (.rest { text := "r", overrides := {} }))] ++ [.blank "\t "] ++
          [.together "AB" ["A", "B"]]) ∧
      readPattern ("(" ++ "A=r" ++ ")") =
        .ok [.sequence ("(" ++ "A=r" ++ ")") {} true
          [.assignment "A=r" "A" false (.event (.rest { text := "r", overrides := {} }))]] := by
  have ha : readPattern "A=r" =
      .ok [.assignment "A=r" "A" false (.event (.rest { text := "r", overrides := {} }))] := rfl
  have hb : readPattern "AB" = .ok [.together "AB" ["A", "B"]] := rfl
  have hend : ∀ c ∈ "A=r".toList.getLast?, isSeparator c = false := by
    intro c hc
    obtain rfl : 'r' = c := Option.some.inj hc
    rfl
  have hstart : ∀ c ∈ "AB".toList.head?, isSeparator c = false := by
    intro c hc
    obtain rfl : 'A' = c := Option.some.inj hc
    rfl
  have hrun : "\t ".toList.all isSeparator = true := rfl
  constructor
  · exact (patterns_compose ha).1 "\t " "AB" _ hb hend hstart (by decide) (List.all_eq_true.mp hrun)
  · exact (patterns_compose ha).2.1

end NumberedMelody
