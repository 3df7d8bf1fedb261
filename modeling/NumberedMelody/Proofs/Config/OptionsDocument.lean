/-
  NumberedMelody/Proofs/Config/OptionsDocument.lean
  =================================================
  **Options taken from the document that they are written as.**  The document
  of options has an entry for each of them that is set.  Unset ones are left
  out, and what is left out keeps its default when options are taken from the
  document: no seed and no bindings come back as they were, but no key and no
  scale come back as the default key and the default scale.
-/
import Mathlib
import NumberedMelody.Config.OptionsDocument

namespace NumberedMelody

/-! ### Numbers and names -/

/-- The program holds octaves, modifiers and notes in 32 bits. -/
def Is32Bit (n : Int) : Prop := -2147483648 ≤ n ∧ n ≤ 2147483647

instance (n : Int) : Decidable (Is32Bit n) := inferInstanceAs (Decidable (_ ∧ _))

theorem Document.int32?_integer {n : Int} (h : Is32Bit n) : (Document.integer n).int32? = some n := if_pos h

theorem Document.numbers?_list (xs : List Float) : (Document.list (xs.map .number)).numbers? = some xs := by
  change (xs.map Document.number).mapM number? = some xs
  induction xs with
  | nil => rfl
  | cons x xs ih =>
    rw [List.map_cons, List.mapM_cons, ih]
    rfl

theorem Document.isUnique_of_nodup {entries : List (String × Document)} (h : (entries.map Prod.fst).Nodup)
    (name : String) : isUnique entries name = true := by
  have hcount : (entries.filter (·.1 == name)).length = (entries.map Prod.fst).count name := by
    rw [List.count_eq_countP, List.countP_map, List.countP_eq_length_filter]
    rfl
  unfold isUnique
  rw [hcount, decide_eq_true_eq]
  exact List.nodup_iff_count_le_one.mp h name

namespace Named

variable {α : Type}

/-- The names ascend, as in every map from names that the program builds. -/
def Ascends (entries : Named α) : Prop := entries.Pairwise fun a b => a.1 < b.1

theorem insert_greatest {name : String} {entries : Named α} (h : ∀ entry ∈ entries, entry.1 < name) (a : α) :
    insert name a entries = entries ++ [(name, a)] := by
  induction entries with
  | nil => rfl
  | cons entry entries ih =>
    obtain ⟨hfirst, hmore⟩ := List.forall_mem_cons.mp h
    have hne : name ≠ entry.1 := by
      rintro rfl
      exact String.lt_irrefl _ hfirst
    obtain ⟨other, b⟩ := entry
    simp only [insert, if_neg hne, if_neg (String.lt_asymm hfirst), ih hmore, List.cons_append]

/-- Entries in their order, given one after the other. -/
theorem foldl_insert_of_ascends {entries : Named α} (h : Ascends entries) :
    entries.foldl (fun all (name, a) => insert name a all) [] = entries := by
  induction entries using List.reverseRecOn with
  | nil => rfl
  | append_singleton entries entry ih =>
    obtain ⟨hbefore, -, hlast⟩ := List.pairwise_append.mp h
    rw [List.foldl_append, ih hbefore]
    exact insert_greatest (fun other hother => hlast other hother entry (List.mem_singleton_self _)) entry.2

end Named

/-! ### The documents of keys, scales and bindings -/

def Key.document : Key → Document
  | .midi note => .integer note
  | .name text => .text text

/-- The program can hold the key. -/
def Key.IsHeld : Key → Prop
  | .midi note => Is32Bit note
  | .name _ => True

theorem Key.ofDocument?_document {key : Key} (h : key.IsHeld) : ofDocument? key.document = some key := by
  cases key with
  | midi note =>
    change (Document.integer note).int32?.map Key.midi = _
    rw [Document.int32?_integer h]
    rfl
  | name text => rfl

def Scale.document : Scale → Document
  | .named name => .text name
  | .steps semitones => .list (semitones.map .number)
  | .cents hundredths => .table [("cents", .list (hundredths.map .number))]

theorem Scale.ofDocument?_document (scale : Scale) : ofDocument? scale.document = some scale := by
  cases scale with
  | named name => rfl
  | steps semitones =>
    change (Document.list (semitones.map .number)).numbers?.map Scale.steps = _
    rw [Document.numbers?_list]
    rfl
  | cents hundredths =>
    change ((Document.list (hundredths.map .number)).numbers?.bind fun values => some (Scale.cents values)) = _
    rw [Document.numbers?_list]
    rfl

def Binding.entries : Binding → List (String × Document)
  | .sample name => [("type", .text "sample"), ("name", .text name)]
  | .function run => [("type", .text "function"), ("run", .text run)]

def Binding.document (binding : Binding) : Document := .table binding.entries

theorem Binding.ofDocument?_document (binding : Binding) : ofDocument? binding.document = some binding := by
  cases binding <;> rfl

namespace Options

def bindingsDocument (bindings : Named Binding) : Document :=
  .table (bindings.map fun entry => (entry.1, entry.2.document))

theorem bindings?_bindingsDocument {bindings : Named Binding} (h : Named.Ascends bindings) :
    bindings? (bindingsDocument bindings) = some bindings := by
  have hread : (bindings.map fun entry => (entry.1, entry.2.document)).mapM
      (fun entry => (Binding.ofDocument? entry.2).map fun binding => (entry.1, binding)) = some bindings := by
    clear h
    induction bindings with
    | nil => rfl
    | cons entry bindings ih =>
      rw [List.map_cons, List.mapM_cons, ih]
      simp only [Binding.ofDocument?_document]
      rfl
  change Option.bind (List.mapM
    (fun entry : String × Document => (Binding.ofDocument? entry.2).map fun binding => (entry.1, binding)) _)
    (fun entries => some (List.foldl _ [] entries)) = _
  rw [hread, Option.bind_some]
  exact congrArg some (Named.foldl_insert_of_ascends h)

/-! ### The document of options -/

/-- The program can hold the options: its numbers have 32 bits and its maps
    have each name once, which the model keeps in ascending order. -/
structure IsHeld (o : Options) : Prop where
  key : ∀ key ∈ o.key, key.IsHeld
  octave : Is32Bit o.octave
  modifier : Is32Bit o.modifier
  bindings : Named.Ascends o.bindings

/-- A scale in cents is written as a table, below the plain values. -/
def isTable : Scale → Bool
  | .cents _ => true
  | _ => false

/-- The scale, if it is written as a table, or if it is not. -/
def scaleWritten (asTable : Bool) (o : Options) : Option Scale := o.scale.filter (isTable · == asTable)

/-- An empty map of bindings is left out. -/
def bindingsWritten (o : Options) : Option (Named Binding) := if o.bindings.isEmpty then none else some o.bindings

/-- The entry of an option that is set. -/
def entry {α : Type} (name : String) (document : α → Document) (a : Option α) : List (String × Document) :=
  a.toList.map fun a => (name, document a)

def numberEntries (o : Options) : List (String × Document) :=
  [("octave", .integer o.octave), ("duration", .number o.duration), ("modifier", .integer o.modifier),
    ("bpm", .number o.bpm)]

/-- What is set and is no table. -/
def plainEntries (o : Options) : List (String × Document) :=
  entry "key" Key.document o.key ++ entry "scale" Scale.document (o.scaleWritten false) ++ o.numberEntries ++
    entry "seed" (fun seed => .integer seed.toNat) o.seed

/-- What is set, the tables last. -/
def entries (o : Options) : List (String × Document) :=
  o.plainEntries ++ entry "scale" Scale.document (o.scaleWritten true) ++
    entry "bindings" bindingsDocument o.bindingsWritten

def document (o : Options) : Document := .table o.entries

theorem scaleWritten_eq_none (o : Options) : o.scaleWritten false = none ∨ o.scaleWritten true = none := by
  unfold scaleWritten
  cases o.scale with
  | none => exact .inl rfl
  | some scale =>
    cases scale with
    | named _ | steps _ => exact .inr rfl
    | cents _ => exact .inl rfl

theorem scaleWritten_or (o : Options) (other : Option Scale) :
    (o.scaleWritten true).or ((o.scaleWritten false).or other) = o.scale.or other := by
  unfold scaleWritten
  cases o.scale with
  | none => rfl
  | some scale => cases scale <;> rfl

theorem names_entry {α : Type} (name : String) (document : α → Document) (a : Option α) :
    ((entry name document a).map Prod.fst).Sublist [name] := by
  cases a with
  | none => exact List.nil_sublist _
  | some a => exact .refl _

theorem names_plainEntries (o : Options) :
    (o.plainEntries.map Prod.fst).Sublist ["key", "scale", "octave", "duration", "modifier", "bpm", "seed"] := by
  unfold plainEntries
  simp only [List.map_append]
  have hkey := names_entry "key" Key.document o.key
  have hscale := names_entry "scale" Scale.document (o.scaleWritten false)
  exact ((hkey.append hscale).append (.refl ["octave", "duration", "modifier", "bpm"])).append
    (names_entry "seed" _ o.seed)

/-- The scale is written in one of two places, everything else in one. -/
theorem nodup_names (o : Options) : (o.entries.map Prod.fst).Nodup := by
  have hkey := names_entry "key" Key.document o.key
  have hscale := names_entry "scale" Scale.document (o.scaleWritten false)
  have hseed := names_entry "seed" (fun seed : UInt64 => .integer seed.toNat) o.seed
  have htable := names_entry "scale" Scale.document (o.scaleWritten true)
  have hbindings := names_entry "bindings" bindingsDocument o.bindingsWritten
  have hnumbers := List.Sublist.refl ["octave", "duration", "modifier", "bpm"]
  unfold entries plainEntries
  simp only [List.map_append]
  rcases o.scaleWritten_eq_none with hnone | hnone
  · rw [hnone] at hscale ⊢
    exact (((((hkey.append (List.nil_sublist [])).append hnumbers).append hseed).append htable).append
      hbindings).nodup (by decide)
  · rw [hnone] at htable ⊢
    exact (((((hkey.append hscale).append hnumbers).append hseed).append (List.nil_sublist [])).append
      hbindings).nodup (by decide)

/-! ### Taking the options again -/

/-- The options with the default key and the default scale where there is none. -/
def filled (o : Options) : Options :=
  { o with key := o.key.or ({} : Options).key, scale := o.scale.or ({} : Options).scale }

def takeEntry (o : Options) (entry : String × Document) : Option Options := o.withField entry.1 entry.2

theorem foldlM_entry {α : Type} {name : String} {document : α → Document} {a : Option α} {base : Options}
    (set : α → Options) (h : ∀ value ∈ a, base.withField name (document value) = some (set value)) :
    (entry name document a).foldlM takeEntry base = some (a.elim base set) := by
  cases a with
  | none => rfl
  | some value =>
    change (base.withField name (document value)).bind some = _
    rw [h value rfl]
    rfl

section Taking

variable {o : Options} (base : Options)

theorem take_key (h : ∀ key ∈ o.key, key.IsHeld) :
    (entry "key" Key.document o.key).foldlM takeEntry base = some { base with key := o.key.or base.key } := by
  rw [foldlM_entry fun key => { base with key := some key }]
  · cases o.key <;> rfl
  · intro key hkey
    have hread : nullable Key.ofDocument? key.document = (Key.ofDocument? key.document).map some := by
      cases key <;> rfl
    change (nullable Key.ofDocument? key.document).bind _ = _
    rw [hread, Key.ofDocument?_document (h key hkey)]
    rfl

theorem take_scale (scale : Option Scale) :
    (entry "scale" Scale.document scale).foldlM takeEntry base = some { base with scale := scale.or base.scale } := by
  rw [foldlM_entry fun scale => { base with scale := some scale }]
  · cases scale <;> rfl
  · intro scale _
    have hread : nullable Scale.ofDocument? scale.document = (Scale.ofDocument? scale.document).map some := by
      cases scale <;> rfl
    change (nullable Scale.ofDocument? scale.document).bind _ = _
    rw [hread, Scale.ofDocument?_document]
    rfl

theorem take_numbers (hoctave : Is32Bit o.octave) (hmodifier : Is32Bit o.modifier) :
    o.numberEntries.foldlM takeEntry base =
      some { base with octave := o.octave, duration := o.duration, modifier := o.modifier, bpm := o.bpm } := by
  simp only [numberEntries, List.foldlM_cons, List.foldlM_nil, takeEntry, withField, Document.number?,
    Document.int32?_integer hoctave, Document.int32?_integer hmodifier]
  rfl

theorem take_seed (seed : Option UInt64) :
    (entry "seed" (fun seed => .integer seed.toNat) seed).foldlM takeEntry base =
      some { base with seed := seed.or base.seed } := by
  rw [foldlM_entry fun seed => { base with seed := some seed }]
  · cases seed <;> rfl
  · intro seed _
    have hbound : (0 : Int) ≤ seed.toNat ∧ (seed.toNat : Int) ≤ 18446744073709551615 := by
      have := seed.toNat_lt
      omega
    have hread : nullable Document.nat64? (.integer seed.toNat) = some (some seed.toNat) := by
      simp only [nullable, Document.nat64?, Document.integerIn?, if_pos hbound, Option.map_some, Int.toNat_natCast]
    change (nullable Document.nat64? (.integer seed.toNat)).bind _ = _
    rw [hread]
    change some { base with seed := some (UInt64.ofNat seed.toNat) } = _
    rw [UInt64.ofNat_toNat]

theorem take_bindings (h : Named.Ascends o.bindings) :
    (entry "bindings" bindingsDocument o.bindingsWritten).foldlM takeEntry base =
      some { base with bindings := o.bindingsWritten.getD base.bindings } := by
  rw [foldlM_entry fun bindings => { base with bindings }]
  · cases o.bindingsWritten <;> rfl
  · intro bindings hbindings
    obtain rfl : o.bindings = bindings := by
      unfold bindingsWritten at hbindings
      split at hbindings
      · cases hbindings
      · exact Option.some.inj hbindings
    change (bindings? (bindingsDocument o.bindings)).bind _ = _
    rw [bindings?_bindingsDocument h]
    rfl

end Taking

theorem bindingsWritten_getD (o : Options) : o.bindingsWritten.getD [] = o.bindings := by
  unfold bindingsWritten
  split
  · next h => exact (List.isEmpty_iff.mp h).symm
  · rfl

/-- Options come back from their document, except that a key and a scale that
    are not set come back as the default ones. -/
theorem ofDocument?_document {o : Options} (h : o.IsHeld) : ofDocument? o.document = some o.filled := by
  have hunique : fieldNames.all (Document.isUnique o.entries) = true :=
    List.all_eq_true.mpr fun name _ => Document.isUnique_of_nodup o.nodup_names name
  have htaken : o.entries.foldlM takeEntry {} = some o.filled := by
    simp only [entries, plainEntries, List.foldlM_append, take_key _ h.key, take_scale,
      take_numbers _ h.octave h.modifier, take_seed, take_bindings _ h.bindings, Option.bind_eq_bind, Option.bind_some, scaleWritten_or,
      bindingsWritten_getD, Option.or_none]
    rfl
  change Option.bind (guard (fieldNames.all (Document.isUnique o.entries) = true)) (fun _ =>
    o.entries.foldlM takeEntry {}) = _
  rw [hunique, htaken]
  rfl

end Options

end NumberedMelody
