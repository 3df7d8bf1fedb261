/-
  NumberedMelody/Proofs/Config/TomlTables.lean
  ============================================
  **Tables that are built again.**  The lines of a document are its plain
  entries and then its sections, each with a header.  As long as no name is
  given twice, each entry and each section adds to the end of the table, and
  sections with a first name in common go to one table of that name.
-/
import Mathlib
import NumberedMelody.Proofs.Config.TomlLines

namespace NumberedMelody.Toml

/-! ### Entries under construction -/

theorem update_new {name : String} {entries : Growth} (h : name ∉ entries.map Prod.fst)
    (f : Option Growing → Option Growing) :
    update name f entries = (f none).map fun value => entries ++ [(name, value)] := by
  induction entries with
  | nil => rfl
  | cons entry entries ih =>
    obtain ⟨other, present⟩ := entry
    rw [List.map_cons, List.mem_cons, not_or] at h
    rw [update, if_neg (Ne.symm h.1), ih h.2, Option.map_map]
    rfl

theorem update_last {name : String} {entries : Growth} (h : name ∉ entries.map Prod.fst) (present : Growing)
    (f : Option Growing → Option Growing) :
    update name f (entries ++ [(name, present)]) = (f (some present)).map fun value => entries ++ [(name, value)] := by
  induction entries with
  | nil =>
    rw [List.nil_append, update, if_pos rfl]
    rfl
  | cons entry entries ih =>
    obtain ⟨other, value⟩ := entry
    rw [List.map_cons, List.mem_cons, not_or] at h
    rw [List.cons_append, update, if_neg (Ne.symm h.1), ih h.2, Option.map_map]
    rfl

/-- Entries whose values are given. -/
def leaves (entries : List (String × Document)) : Growth := entries.map fun entry => (entry.1, .leaf entry.2)

theorem map_fst_leaves (entries : List (String × Document)) : (leaves entries).map Prod.fst = entries.map Prod.fst := by
  simp only [leaves, List.map_map, Function.comp_def]

theorem finishedEntries_append (first second : Growth) :
    finishedEntries (first ++ second) = finishedEntries first ++ finishedEntries second := by
  induction first with
  | nil => rfl
  | cons entry first ih =>
    rw [List.cons_append, finishedEntries, ih]
    rfl

theorem finishedEntries_leaves (entries : List (String × Document)) : finishedEntries (leaves entries) = entries := by
  induction entries with
  | nil => rfl
  | cons entry entries ih =>
    change (entry.1, entry.2) :: finishedEntries (leaves entries) = _
    rw [ih]

/-- Entries whose keys have one part. -/
def onePart (entries : List (String × Document)) : Entries := entries.map fun entry => ([entry.1], entry.2)

/-- Names that are given once each are added in their order. -/
theorem defineAll_onePart {new : List (String × Document)} (entries : Growth)
    (h : (entries.map Prod.fst ++ new.map Prod.fst).Nodup) :
    defineAll (onePart new) entries = some (entries ++ leaves new) := by
  induction new generalizing entries with
  | nil => exact congrArg some (List.append_nil entries).symm
  | cons entry new ih =>
    have hnew : entry.1 ∉ entries.map Prod.fst := fun hmem =>
      List.disjoint_of_nodup_append h hmem List.mem_cons_self
    have hnext : ((entries ++ [(entry.1, Growing.leaf entry.2)]).map Prod.fst ++ new.map Prod.fst).Nodup := by
      simpa using h
    have hentry : define true [entry.1] entry.2 entries = some (entries ++ [(entry.1, .leaf entry.2)]) := by
      rw [define, update_new hnew]
      rfl
    change (define true [entry.1] entry.2 entries).bind (fun entries => defineAll (onePart new) entries) = _
    rw [hentry, Option.bind_some, ih _ hnext, List.append_assoc]
    rfl

/-! ### Sections -/

/-- A header and the entries below it. -/
abbrev Section := List String × List (String × Document)

def openedBy (entries : List (String × Document)) : Growing := .table .header (leaves entries)

theorem openTable_none {new : List (String × Document)} (h : (new.map Prod.fst).Nodup) :
    openTable (onePart new) none = some (openedBy new) := by
  rw [openTable, defineAll_onePart [] h]
  rfl

/-- Open the table of a section. -/
def openSection (entries : Growth) (s : Section) : Option Growth := below (openTable (onePart s.2)) s.1 entries

theorem openSection_one {name : String} {new : List (String × Document)} {entries : Growth}
    (hname : name ∉ entries.map Prod.fst) (hnew : (new.map Prod.fst).Nodup) :
    openSection entries ([name], new) = some (entries ++ [(name, openedBy new)]) := by
  rw [openSection, below, update_new hname, openTable_none hnew]
  rfl

/-- A table of tables, on the way to each of which there is nothing else. -/
def grouped (group : String) (tables : List (String × List (String × Document))) : Growth :=
  if tables.isEmpty then []
  else [(group, .table .onTheWay (tables.map fun table => (table.1, openedBy table.2)))]

theorem openSection_two {group name : String} {new : List (String × Document)}
    {tables : List (String × List (String × Document))} {entries : Growth} (hgroup : group ∉ entries.map Prod.fst)
    (hname : name ∉ tables.map Prod.fst) (hnew : (new.map Prod.fst).Nodup) :
    openSection (entries ++ grouped group tables) ([group, name], new) =
      some (entries ++ grouped group (tables ++ [(name, new)])) := by
  -- whatever tables the group has, this one is added behind them
  have hinner : below (openTable (onePart new)) [name] (tables.map fun table => (table.1, openedBy table.2)) =
      some ((tables ++ [(name, new)]).map fun table => (table.1, openedBy table.2)) := by
    rw [below, update_new (by simpa [Function.comp_def] using hname), openTable_none hnew, List.map_append]
    rfl
  have hgrouped : grouped group (tables ++ [(name, new)]) =
      [(group, .table .onTheWay ((tables ++ [(name, new)]).map fun table => (table.1, openedBy table.2)))] :=
    if_neg (by simp)
  have hclosed := congrArg (fun inner =>
    (inner.map (Growing.table .onTheWay)).map fun value => entries ++ [(group, value)]) hinner
  rw [hgrouped]
  cases tables with
  | nil =>
    change openSection (entries ++ []) _ = _
    rw [List.append_nil, openSection, below, update_new hgroup]
    · exact hclosed
    · simp
  | cons table tables =>
    change openSection (entries ++ [(group, _)]) _ = _
    rw [openSection, below, update_last hgroup]
    · exact hclosed
    · simp

/-- Sections whose headers have two parts, the first of them in common. -/
theorem openSections_two {group : String} (tables : List (String × List (String × Document))) {entries : Growth}
    (hgroup : group ∉ entries.map Prod.fst) (htables : (tables.map Prod.fst).Nodup)
    (hnew : ∀ table ∈ tables, (table.2.map Prod.fst).Nodup) :
    (tables.map fun table => ([group, table.1], table.2)).foldlM openSection entries =
      some (entries ++ grouped group tables) := by
  induction tables using List.reverseRecOn with
  | nil => exact congrArg some (List.append_nil entries).symm
  | append_singleton tables table ih =>
    obtain ⟨hbefore, hlast⟩ := List.forall_mem_append.mp hnew
    rw [List.map_append, List.nodup_append] at htables
    have hname : table.1 ∉ tables.map Prod.fst := fun hmem => htables.2.2 _ hmem _ (List.mem_singleton_self _) rfl
    rw [List.map_append, List.foldlM_append, ih htables.1 hbefore]
    change (openSection (entries ++ grouped group tables) ([group, table.1], table.2)).bind some = _
    rw [openSection_two hgroup hname (hlast table (List.mem_singleton_self _))]
    rfl

theorem finishedEntries_openedBy (tables : List (String × List (String × Document))) :
    finishedEntries (tables.map fun table => (table.1, openedBy table.2)) =
      tables.map fun table => (table.1, .table table.2) := by
  induction tables with
  | nil => rfl
  | cons table tables ih =>
    change (table.1, Document.table (finishedEntries (leaves table.2))) :: finishedEntries (tables.map _) = _
    rw [ih, finishedEntries_leaves]
    rfl

/-! ### Documents -/

def entryLines (entries : List (String × Document)) : List Line := entries.map fun entry => .entry [entry.1] entry.2

/-- An empty line stands above each section. -/
def sectionLines (s : Section) : List Line := .nothing :: .table s.1 :: entryLines s.2

theorem reads_section {header body : List Char} {s : Section} (hne : header ≠ [])
    (hheader : ∀ rest, line (header ++ rest) = some (.table s.1, rest)) (hbody : Reads body (entryLines s.2)) :
    Reads ('\n' :: (header ++ body)) (sectionLines s) :=
  (reads_line (List.cons_ne_nil '\n' []) line_newline).append ((reads_line hne hheader).append hbody)

theorem leadingEntries_lines (entries : List (String × Document)) (sections : List Section) :
    (leadingEntries (entryLines entries ++ sections.flatMap sectionLines)).1 = onePart entries := by
  induction entries with
  | nil => cases sections <;> rfl
  | cons entry entries ih =>
    change ([entry.1], entry.2) :: (leadingEntries (entryLines entries ++ sections.flatMap sectionLines)).1 = _
    rw [ih]
    rfl

theorem addSections_entryLines (new : List (String × Document)) (lines : List Line) :
    addSections (entryLines new ++ lines) = addSections lines := by
  induction new with
  | nil => rfl
  | cons entry new ih => exact ih

theorem addSections_lines (sections : List Section) (entries : Growth) :
    addSections (sections.flatMap sectionLines) entries = sections.foldlM openSection entries := by
  induction sections generalizing entries with
  | nil => rfl
  | cons s sections ih =>
    rw [List.flatMap_cons, List.foldlM_cons]
    change (below (openTable (leadingEntries (entryLines s.2 ++ sections.flatMap sectionLines)).1) s.1 entries).bind
      (addSections (entryLines s.2 ++ sections.flatMap sectionLines)) = (openSection entries s).bind _
    rw [leadingEntries_lines, addSections_entryLines, funext ih]
    rfl

/-- **A document is read from its lines** if its sections can be opened. -/
theorem read?_of_reads {text : String} {plain : List (String × Document)} {sections : List Section} {entries : Growth}
    (hreads : Reads text.toList (entryLines plain ++ sections.flatMap sectionLines))
    (hplain : (plain.map Prod.fst).Nodup) (hsections : sections.foldlM openSection (leaves plain) = some entries) :
    read? text = some (.table (finishedEntries entries)) := by
  have hmark : Reader.optional (Reader.char byteOrderMark) text.toList = some (none, text.toList) := by
    have hhead := hreads.head_ne_mark
    refine Reader.optional_of_none ?_
    cases htext : text.toList with
    | nil => rfl
    | cons c rest => rw [Reader.char_cons, if_neg (hhead c (by rw [htext]; rfl))]
  have htop : defineAll (leadingEntries (entryLines plain ++ sections.flatMap sectionLines)).1 [] =
      some (leaves plain) := by
    rw [leadingEntries_lines, defineAll_onePart [] hplain]
    rfl
  have hall : addSections (entryLines plain ++ sections.flatMap sectionLines) (leaves plain) = some entries := by
    rw [addSections_entryLines, addSections_lines, hsections]
  unfold read?
  rw [hmark]
  change (Reader.many line text.toList).bind _ = _
  rw [hreads.whole]
  change (defineAll _ []).bind _ = _
  rw [htop]
  change (addSections _ _).bind _ = _
  rw [hall]
  rfl

end NumberedMelody.Toml
