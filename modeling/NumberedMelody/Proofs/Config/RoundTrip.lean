/-
  NumberedMelody/Proofs/Config/RoundTrip.lean
  ===========================================
  **Options written and read again.**  Each option that is set is a line, or a
  table with its lines, of the text, and is read from there as it was.  Options
  that are not set are left out, and for those the defaults are read: a text
  cannot say that there is no key or no scale, so options without one of them
  come back with the default one.
-/
import Mathlib
import NumberedMelody.Proofs.Config.OptionsDocument
import NumberedMelody.Proofs.Config.TomlTables

namespace NumberedMelody

open Toml

/-- The numbers in a scale. -/
def Scale.numbers : Scale → List Float
  | .named _ => []
  | .steps semitones => semitones
  | .cents hundredths => hundredths

namespace Options

/-- Every double in the options is finite. -/
structure IsFinite (o : Options) : Prop where
  duration : o.duration.isFinite = true
  bpm : o.bpm.isFinite = true
  scale : ∀ scale ∈ o.scale, ∀ x ∈ scale.numbers, x.isFinite = true

/-! ### The lines of the text -/

theorem isValue_text (text : String) : IsValue (stringText text) (.text text) := (readsAs_stringText text).isValue

theorem isValue_int32 {n : Int} (h : Is32Bit n) : IsValue (toString n) (.integer n) :=
  (readsAs_integer (by unfold Is32Bit at h; omega)).isValue

theorem reads_keyLine {key : Key} (h : key.IsHeld) :
    Reads (keyLine key).toList [.entry ["key"] key.document] := by
  cases key with
  | midi note => exact reads_lineText "key" (isValue_int32 h)
  | name text => exact reads_lineText "key" (isValue_text text)

theorem reads_scaleLine (scale : Scale) (h : ∀ x ∈ scale.numbers, x.isFinite = true) (hline : isTable scale = false) :
    Reads (scaleLine scale).toList [.entry ["scale"] scale.document] := by
  cases scale with
  | named name => exact reads_lineText "scale" (isValue_text name)
  | steps semitones => exact reads_lineText "scale" (isValue_arrayText h)
  | cents hundredths => cases hline

def scaleSections (o : Options) : List Section :=
  match o.scale with
  | some (.cents hundredths) => [(["scale"], [("cents", .list (hundredths.map .number))])]
  | _ => []

def bindingSection (entry : String × Binding) : Section := (["bindings", entry.1], entry.2.entries)

theorem reads_scaleTable {hundredths : List Float} (h : ∀ x ∈ hundredths, x.isFinite = true) :
    Reads (scaleTable (.cents hundredths)).toList
      (sectionLines (["scale"], [("cents", .list (hundredths.map .number))])) := by
  have htext : (scaleTable (.cents hundredths)).toList =
      '\n' :: (('[' :: ((keyText "scale").toList ++ [']', '\n'])) ++
        (lineText "cents" (arrayText hundredths)).toList) := by
    rw [scaleTable, String.toList_append]
    rfl
  rw [htext]
  refine reads_section (List.cons_ne_nil _ _) (fun rest => ?_)
    (reads_lineText "cents" (isValue_arrayText h))
  simpa using line_header_keyText "scale" rest

theorem reads_bindingTable (name : String) (binding : Binding) :
    Reads (bindingTable name binding).toList (sectionLines (bindingSection (name, binding))) := by
  obtain ⟨body, htable, hbody⟩ : ∃ body, bindingTable name binding = "\n[bindings." ++ keyText name ++ "]\n" ++ body ∧
      Reads body.toList (entryLines binding.entries) := by
    have hvalue (text : String) : Reads _ _ := reads_lineText "type" (isValue_text text)
    cases binding with
    | sample sample =>
      refine ⟨_, rfl, ?_⟩
      rw [String.toList_append]
      exact (hvalue "sample").append (reads_lineText "name" (isValue_text sample))
    | function run =>
      refine ⟨_, rfl, ?_⟩
      rw [String.toList_append]
      exact (hvalue "function").append (reads_lineText "run" (isValue_text run))
  have htext : (bindingTable name binding).toList =
      '\n' :: (('[' :: ((keyText "bindings").toList ++ '.' :: ((keyText name).toList ++ [']', '\n']))) ++
        body.toList) := by
    have hkey : (keyText "bindings").toList = "bindings".toList := rfl
    rw [htable, hkey]
    simp
  rw [htext]
  refine reads_section (List.cons_ne_nil _ _) (fun rest => ?_) hbody
  simpa [bindingSection] using line_header_keyText_keyText "bindings" name rest

theorem reads_option {α : Type} (name : String) (document : α → Document) {write : α → String} {a : Option α}
    (h : ∀ value ∈ a, Reads (write value).toList [.entry [name] (document value)]) :
    Reads ((a.map write).getD "").toList (entryLines (entry name document a)) := by
  cases a with
  | none => exact reads_nil
  | some value => exact h value rfl

variable {o : Options}

theorem reads_scale (h : ∀ scale ∈ o.scale, ∀ x ∈ scale.numbers, x.isFinite = true) :
    Reads ((o.scale.map scaleLine).getD "").toList
      (entryLines (entry "scale" Scale.document (o.scaleWritten false))) := by
  unfold scaleWritten
  cases hscale : o.scale with
  | none => exact reads_nil
  | some scale =>
    have hnumbers := h scale hscale
    cases scale with
    | named name => exact reads_scaleLine (.named name) hnumbers rfl
    | steps semitones => exact reads_scaleLine (.steps semitones) hnumbers rfl
    | cents _ => exact reads_nil

theorem reads_scaleSections (h : ∀ scale ∈ o.scale, ∀ x ∈ scale.numbers, x.isFinite = true) :
    Reads ((o.scale.map scaleTable).getD "").toList (o.scaleSections.flatMap sectionLines) := by
  unfold scaleSections
  cases hscale : o.scale with
  | none => exact reads_nil
  | some scale =>
    have hnumbers := h scale hscale
    cases scale with
    | named _ | steps _ => exact reads_nil
    | cents _ => exact reads_scaleTable hnumbers

theorem reads_numbers (hheld : o.IsHeld) (hfinite : o.IsFinite) :
    Reads ((lineText "octave" (toString o.octave)).toList ++ ((lineText "duration" (numberText o.duration)).toList ++
      ((lineText "modifier" (toString o.modifier)).toList ++ (lineText "bpm" (numberText o.bpm)).toList)))
      (entryLines o.numberEntries) :=
  (reads_lineText "octave" (isValue_int32 hheld.octave)).append
    ((reads_lineText "duration" (readsAs_numberText hfinite.duration).isValue).append
      ((reads_lineText "modifier" (isValue_int32 hheld.modifier)).append
        (reads_lineText "bpm" (readsAs_numberText hfinite.bpm).isValue)))

/-- The lines of the options, and then the tables. -/
theorem reads_toToml (hheld : o.IsHeld) (hfinite : o.IsFinite) {text : String} (htext : o.toToml = .ok text) :
    Reads text.toList
      (entryLines o.plainEntries ++ (o.scaleSections ++ o.bindings.map bindingSection).flatMap sectionLines) := by
  unfold toToml at htext
  split at htext
  · cases htext
  · next hseed =>
    obtain rfl := Except.ok.inj htext
    have hkey := reads_option "key" Key.document fun key hkey => reads_keyLine (hheld.key key hkey)
    have hseedLine : ∀ seed ∈ o.seed, Reads (lineText "seed" (toString seed.toNat)).toList
        [.entry ["seed"] (.integer seed.toNat)] := by
      intro seed hmem
      rw [Option.mem_def.mp hmem] at hseed
      have hbound : (seed.toNat : Int) ≤ 9223372036854775807 := by simpa using hseed
      exact reads_lineText "seed" (readsAs_integer ⟨by omega, hbound⟩).isValue
    have hbindings : Reads (o.bindings.flatMap fun entry => (bindingTable entry.1 entry.2).toList)
        (o.bindings.flatMap fun entry => sectionLines (bindingSection entry)) :=
      .flatMap fun entry _ => reads_bindingTable entry.1 entry.2
    have hall := hkey.append ((reads_scale hfinite.scale).append ((reads_numbers hheld hfinite).append
      ((reads_option "seed" _ hseedLine).append ((reads_scaleSections hfinite.scale).append hbindings))))
    simpa only [String.toList_join, List.flatMap_cons, List.flatMap_nil, List.append_nil, List.append_assoc,
      List.flatMap_map, List.flatMap_append, plainEntries, entryLines, List.map_append] using hall

/-! ### The document of the text -/

/-- The table of a scale, as its section leaves it. -/
def scaleGrowth (o : Options) : Growth := o.scaleSections.map fun s => ("scale", openedBy s.2)

theorem finishedEntries_scaleGrowth (o : Options) :
    finishedEntries o.scaleGrowth = entry "scale" Scale.document (o.scaleWritten true) := by
  unfold scaleGrowth scaleSections scaleWritten
  cases o.scale with
  | none => rfl
  | some scale => cases scale <;> rfl

theorem open_scaleSections {entries : Growth} (h : o.scaleWritten true ≠ none → "scale" ∉ entries.map Prod.fst) :
    o.scaleSections.foldlM openSection entries = some (entries ++ o.scaleGrowth) := by
  unfold scaleWritten at h
  unfold scaleGrowth scaleSections
  cases hscale : o.scale with
  | none => exact congrArg some (List.append_nil entries).symm
  | some scale =>
    rw [hscale] at h
    cases scale with
    | named _ | steps _ => exact congrArg some (List.append_nil entries).symm
    | cents hundredths =>
      change (openSection entries (["scale"], [("cents", .list (hundredths.map .number))])).bind some = _
      rw [openSection_one (h (by simp [isTable])) (by simp)]
      rfl

/-- The tables of the bindings. -/
def bindingTables (o : Options) : List (String × List (String × Document)) :=
  o.bindings.map fun entry => (entry.1, entry.2.entries)

theorem finishedEntries_bindingTables (o : Options) :
    finishedEntries (grouped "bindings" o.bindingTables) = entry "bindings" bindingsDocument o.bindingsWritten := by
  unfold bindingTables bindingsWritten
  cases o.bindings with
  | nil => rfl
  | cons first more =>
    change [("bindings", Document.table (finishedEntries (List.map _ (List.map _ (first :: more)))))] = _
    rw [finishedEntries_openedBy, List.map_map]
    rfl

theorem nodup_names_binding (binding : Binding) : (binding.entries.map Prod.fst).Nodup := by
  cases binding <;> simp [Binding.entries]

theorem open_bindings {entries : Growth} (hentries : "bindings" ∉ entries.map Prod.fst) (h : Named.Ascends o.bindings) :
    (o.bindings.map bindingSection).foldlM openSection entries =
      some (entries ++ grouped "bindings" o.bindingTables) := by
  have hnames : (o.bindingTables.map Prod.fst).Nodup := by
    unfold bindingTables
    rw [List.map_map]
    exact (List.pairwise_map.mpr h).imp fun hlt => hlt.ne
  have hbindings : ∀ table ∈ o.bindingTables, (table.2.map Prod.fst).Nodup :=
    List.forall_mem_map.mpr fun entry _ => nodup_names_binding entry.2
  have hopened := openSections_two o.bindingTables hentries hnames hbindings
  rw [bindingTables, List.map_map] at hopened
  exact hopened

/-- **The text of options is read as their document.** -/
theorem read?_toToml (hheld : o.IsHeld) (hfinite : o.IsFinite) {text : String} (htext : o.toToml = .ok text) :
    Toml.read? text = some o.document := by
  have hreads := reads_toToml hheld hfinite htext
  have hnames := o.nodup_names
  simp only [entries, List.map_append, List.append_assoc] at hnames
  have hscale : o.scaleWritten true ≠ none → "scale" ∉ (leaves o.plainEntries).map Prod.fst := by
    intro hsome hmem
    rw [map_fst_leaves] at hmem
    obtain ⟨scale, hscale⟩ := Option.ne_none_iff_exists'.mp hsome
    rw [hscale] at hnames
    exact List.disjoint_of_nodup_append hnames hmem (by simp [entry])
  have hbindings : "bindings" ∉ (leaves o.plainEntries ++ o.scaleGrowth).map Prod.fst := by
    rw [List.map_append, map_fst_leaves, List.mem_append, not_or]
    exact ⟨fun hmem => absurd (o.names_plainEntries.subset hmem) (by decide), by simp [scaleGrowth]⟩
  have hopened : (o.scaleSections ++ o.bindings.map bindingSection).foldlM openSection (leaves o.plainEntries) =
      some (leaves o.plainEntries ++ o.scaleGrowth ++ grouped "bindings" o.bindingTables) := by
    rw [List.foldlM_append, open_scaleSections hscale]
    exact open_bindings hbindings hheld.bindings
  rw [read?_of_reads hreads (List.Nodup.of_append_left hnames) hopened, finishedEntries_append,
    finishedEntries_append, finishedEntries_leaves, finishedEntries_scaleGrowth, finishedEntries_bindingTables]
  rfl

/-- Options come back with the default key and the default scale where there was none. -/
theorem read_toToml (hheld : o.IsHeld) (hfinite : o.IsFinite) {text : String} (htext : o.toToml = .ok text) :
    read text = .ok o.filled := by
  unfold read
  rw [read?_toToml hheld hfinite htext, Option.bind_some, ofDocument?_document hheld]

theorem filled_eq_iff : o.filled = o ↔ o.key.isSome ∧ o.scale.isSome := by
  constructor
  · intro h
    have hkey : o.key.or (some _) = o.key := congrArg Options.key h
    have hscale : o.scale.or (some _) = o.scale := congrArg Options.scale h
    rw [← hkey, ← hscale]
    exact ⟨by simp, by simp⟩
  · rintro ⟨hkey, hscale⟩
    obtain ⟨key, hkey⟩ := Option.isSome_iff_exists.mp hkey
    obtain ⟨scale, hscale⟩ := Option.isSome_iff_exists.mp hscale
    unfold filled
    rw [hkey, hscale]
    cases o
    simp_all

/-- **Options written and read again** come back as they were if and only if
    they have a key and a scale. -/
theorem read_toToml_iff (hheld : o.IsHeld) (hfinite : o.IsFinite) {text : String} (htext : o.toToml = .ok text) :
    read text = .ok o.filled ∧ (read text = .ok o ↔ o.key.isSome ∧ o.scale.isSome) := by
  have hread := read_toToml hheld hfinite htext
  refine ⟨hread, ?_⟩
  rw [hread, Except.ok.injEq, filled_eq_iff]

/-- Options that use both ways of giving a key and a scale without a name, and a binding. -/
def tuned : Options :=
  { key := some (.midi 60), scale := some (.cents [150.0, 1050.0]), octave := -1, seed := some 7,
    bindings := [("kick", .sample "bd")] }

def tunedText : String :=
  "key = 60\noctave = -1\nduration = 0.25\nmodifier = 0\nbpm = 120.0\nseed = 7\n" ++
    "\n[scale]\ncents = [\n    150.0,\n    1050.0,\n]\n" ++
    "\n[bindings.kick]\ntype = \"sample\"\nname = \"bd\"\n"

theorem tuned_read_back :
    tuned.IsHeld ∧ tuned.IsFinite ∧ tuned.toToml = .ok tunedText ∧ read tunedText = .ok tuned := by
  have hkey : ∀ key ∈ tuned.key, key.IsHeld := by
    rintro _ ⟨⟩
    exact (by decide : Is32Bit 60)
  have hheld : tuned.IsHeld := ⟨hkey, by decide, by decide, by simp [Named.Ascends, tuned]⟩
  have hfinite : tuned.IsFinite := ⟨rfl, rfl, by
    rintro _ ⟨⟩ x hx
    simp only [Scale.numbers, List.mem_cons, List.not_mem_nil, or_false] at hx
    rcases hx with rfl | rfl <;> rfl⟩
  have htext : tuned.toToml = .ok tunedText := by decide +kernel
  exact ⟨hheld, hfinite, htext, (read_toToml_iff hheld hfinite htext).2.mpr ⟨rfl, rfl⟩⟩

def keylessText : String := "scale = \"Ionian\"\noctave = 0\nduration = 0.25\nmodifier = 0\nbpm = 120.0\n"

/-- Options without a key come back with the default key. -/
theorem keyless_not_read_back :
    ({ key := none } : Options).toToml = .ok keylessText ∧ read keylessText = .ok {} ∧
      read keylessText ≠ .ok { key := none } := by
  have hheld : IsHeld { key := none } := ⟨by simp, by decide, by decide, by simp [Named.Ascends]⟩
  have hfinite : IsFinite { key := none } := ⟨rfl, rfl, by
    rintro _ ⟨⟩ x hx
    cases hx⟩
  have htext : ({ key := none } : Options).toToml = .ok keylessText := by decide +kernel
  have hread := read_toToml hheld hfinite htext
  refine ⟨htext, hread, ?_⟩
  rw [hread]
  intro h
  cases congrArg Options.key (Except.ok.inj h)

end Options

end NumberedMelody
