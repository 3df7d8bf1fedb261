/-
  NumberedMelody/Proofs/Grammar/Margins.lean
  ==========================================
  **Separators around a pattern.**  Separators at the end of a pattern belong to
  none of its items: what stands in front of them is a pattern of its own, and
  they are read as one blank.  With separators between them, any two patterns
  are therefore read as the nodes of the one and the nodes of the other, apart
  from blanks (`readPattern_joined`).
-/
import Mathlib.Data.List.DropRight
import NumberedMelody.Proofs.Grammar.Juxtaposition
import NumberedMelody.Proofs.Tree.Blanks

namespace NumberedMelody

open Reader
open Text (isSeparator)

namespace Grammar

variable {text other run more : List Char} {nodes others : List Node}

open Node (withoutBlanks)

/-- Separators lead nowhere else. -/
theorem after_separators (hrun : ∀ c ∈ run, isSeparator c = true) (place : Place) :
    place.after run = some place := by
  apply Place.after_of_step
  intro c hc
  cases place with
  | inGroups depth => exact step_separator (hrun c hc)
  | inBraces depth =>
    have hne : c ≠ '\x7d' := by
      rintro rfl
      exact absurd (hrun _ hc) (by decide)
    simp only [Place.step, if_neg hne]

/-- Separators close no group. -/
theorem whole_of_items_append (hrun : ∀ c ∈ run, isSeparator c = true)
    (h : items (text ++ run) = some (nodes, [])) : (Place.inGroups 0).after text = some (.inGroups 0) := by
  have hwhole := whole_of_items h
  unfold Place.after at hwhole
  rw [List.foldlM_append] at hwhole
  obtain ⟨place, hplace, hafter⟩ := Option.bind_eq_some_iff.mp hwhole
  have hstays : place.after run = some place := after_separators hrun place
  obtain rfl : place = .inGroups 0 := Option.some.inj (hstays.symm.trans hafter)
  exact hplace

/-- Of a text that is read with more behind it, the whole part in front is read
    on its own. -/
theorem exists_items_of_append (hmeets : Meets .closing (.inGroups 0) text more)
    (h : items (text ++ more) = some (nodes, [])) : ∃ before, items text = some (before, []) := by
  induction hlength : text.length using Nat.strongRecOn generalizing text nodes with
  | ind length ih =>
    cases text with
    | nil => exact ⟨[], rfl⟩
    | cons c text =>
      have hitem := item_append (List.cons_ne_nil c text) hmeets
      cases hfirst : item (c :: text) with
      | none =>
        -- nothing would be read of the longer text either
        rw [hfirst] at hitem
        rw [items_of_none hitem] at h
        cases h
      | some pair =>
        obtain ⟨node, rest⟩ := pair
        rw [hfirst] at hitem
        rw [items_cons hitem] at h
        obtain ⟨⟨later, unread⟩, hlater, heq⟩ := Option.map_eq_some_iff.mp h
        obtain ⟨rfl, rfl⟩ := Prod.mk.inj heq
        obtain ⟨front, hsplit, hfront⟩ := item_leads hfirst
        have hrest : Meets .closing (.inGroups 0) rest more := (hsplit ▸ hmeets).from hfront
        obtain ⟨before, hbefore⟩ := ih rest.length (hlength ▸ Productive.shorter hfirst) hrest hlater rfl
        refine ⟨node :: before, ?_⟩
        rw [items_cons hfirst, hbefore]
        rfl

theorem items_of_trailing (hend : ∀ c ∈ text.getLast?, isSeparator c = false)
    (hrun : ∀ c ∈ run, isSeparator c = true) (h : items (text ++ run) = some (nodes, [])) :
    ∃ before, items text = some (before, []) ∧ withoutBlanks nodes = withoutBlanks before := by
  cases run with
  | nil =>
    rw [List.append_nil] at h
    exact ⟨nodes, h, rfl⟩
  | cons c run =>
    have hmeets : Meets .closing (.inGroups 0) text (c :: run) :=
      ⟨whole_of_items_append hrun h, c, mem_signs_of_isSeparator (hrun c List.mem_cons_self), run, rfl, fun _ => hend⟩
    obtain ⟨before, hbefore⟩ := exists_items_of_append hmeets h
    have hblank : items (c :: run ++ []) = _ := items_of_separators (List.cons_ne_nil c run) hrun fun d hd => nomatch hd
    rw [List.append_nil] at hblank
    rw [items_append hbefore hmeets, hblank] at h
    obtain ⟨rfl, -⟩ := Prod.mk.inj (Option.some.inj h)
    refine ⟨before, hbefore, ?_⟩
    rw [Node.withoutBlanks_append]
    exact List.append_nil _

theorem items_of_leading (hstart : ∀ c ∈ text.head?, isSeparator c = false)
    (hrun : ∀ c ∈ run, isSeparator c = true) (h : items (run ++ text) = some (nodes, [])) :
    ∃ after, items text = some (after, []) ∧ withoutBlanks nodes = withoutBlanks after := by
  by_cases hne : run = []
  · rw [hne, List.nil_append] at h
    exact ⟨nodes, h, rfl⟩
  · rw [items_of_separators hne hrun hstart] at h
    obtain ⟨⟨after, rest⟩, hafter, heq⟩ := Option.map_eq_some_iff.mp h
    obtain ⟨rfl, rfl⟩ := Prod.mk.inj heq
    exact ⟨after, hafter, rfl⟩

/-- A text and the separators at its end. -/
theorem exists_trailing (text : List Char) :
    ∃ core run, text = core ++ run ∧ (∀ c ∈ core.getLast?, isSeparator c = false) ∧
      ∀ c ∈ run, isSeparator c = true := by
  refine ⟨text.rdropWhile isSeparator, text.rtakeWhile isSeparator,
    (List.rdropWhile_append_rtakeWhile ..).symm, ?_, fun c => List.mem_rtakeWhile_imp⟩
  intro c hc
  have hne : text.rdropWhile isSeparator ≠ [] := by
    intro hnil
    rw [hnil] at hc
    cases hc
  rw [List.getLast?_eq_getLast_of_ne_nil hne] at hc
  obtain rfl := Option.some.inj hc
  simpa using List.rdropWhile_last_not isSeparator text hne

/-- The separators at the start of a text, and the rest. -/
theorem exists_leading (text : List Char) :
    ∃ run core, text = run ++ core ∧ (∀ c ∈ run, isSeparator c = true) ∧
      ∀ c ∈ core.head?, isSeparator c = false := by
  refine ⟨text.takeWhile isSeparator, text.dropWhile isSeparator, List.takeWhile_append_dropWhile.symm,
    fun c => List.mem_takeWhile_imp, ?_⟩
  intro c hc
  have hhead := List.head?_dropWhile_not isSeparator text
  rw [Option.mem_def.mp hc] at hhead
  simpa using hhead

/-- **Patterns with separators between them are read side by side**, whatever
    separators they end and start with themselves. -/
theorem items_joined (h : items text = some (nodes, [])) (hother : items other = some (others, []))
    (hne : run ≠ []) (hrun : ∀ c ∈ run, isSeparator c = true) :
    ∃ joined, items (text ++ (run ++ other)) = some (joined, []) ∧
      withoutBlanks joined = withoutBlanks nodes ++ withoutBlanks others := by
  obtain ⟨core, trailing, rfl, hend, htrailing⟩ := exists_trailing text
  obtain ⟨leading, core', rfl, hleading, hstart⟩ := exists_leading other
  obtain ⟨before, hbefore, hsame⟩ := items_of_trailing hend htrailing h
  obtain ⟨after, hafter, hsame'⟩ := items_of_leading hstart hleading hother
  have hbetween : ∀ c ∈ trailing ++ (run ++ leading), isSeparator c = true := by
    intro c hc
    simp only [List.mem_append] at hc
    rcases hc with hc | hc | hc
    · exact htrailing c hc
    · exact hrun c hc
    · exact hleading c hc
  have hread := items_side_by_side hbefore hafter hend hstart (by simp [hne]) hbetween
  refine ⟨before ++ .blank (String.ofList (trailing ++ (run ++ leading))) :: after, ?_, ?_⟩
  · rw [← hread]
    simp only [List.append_assoc]
  · rw [Node.withoutBlanks_append, hsame, hsame']
    rfl

end Grammar

/-- **Two patterns joined by separators** are read as the nodes of both. -/
theorem readPattern_joined {a b run : String} {na nb : List Node} (ha : readPattern a = .ok na)
    (hb : readPattern b = .ok nb) (hne : run ≠ "") (hrun : ∀ c ∈ run.toList, isSeparator c = true) :
    ∃ nodes, readPattern (a ++ run ++ b) = .ok nodes ∧
      Node.withoutBlanks nodes = Node.withoutBlanks na ++ Node.withoutBlanks nb := by
  rw [readPattern_eq_ok] at ha hb
  have hne' : run.toList ≠ [] := by
    intro hnil
    exact hne (String.toList_inj.mp hnil)
  obtain ⟨nodes, hread, hnodes⟩ := Grammar.items_joined ha hb hne' hrun
  refine ⟨nodes, ?_, hnodes⟩
  rw [readPattern_eq_ok]
  simpa using hread

end NumberedMelody
