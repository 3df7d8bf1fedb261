/-
  NumberedMelody/Config/OptionsDocument.lean
  ==========================================
  **Options in documents.**  A document gives options by name or, as a list,
  in a fixed order; what it leaves out keeps its default.  Null stands for no
  key, no scale and no seed, and for nothing else; names that are no option
  are ignored.
-/
import NumberedMelody.Config.Document
import NumberedMelody.Options

namespace NumberedMelody

/-- A key: a MIDI note or a name. -/
def Key.ofDocument? : Document → Option Key
  | .text written => some (.name written)
  | d => d.int32?.map .midi

/-- A scale: a name, a list of steps, or a table with a list of cents. -/
def Scale.ofDocument? : Document → Option Scale
  | .text written => some (.named written)
  | .list items => (Document.list items).numbers?.map .steps
  | .table entries => do
    guard (Document.isUnique entries "cents")
    let values ← entries.lookup "cents"
    return .cents (← values.numbers?)
  | _ => none

/-- A binding: a table with a type and a payload, or a list of the two. -/
def Binding.ofDocument? : Document → Option Binding
  | .list [.text "sample", .text name] => some (.sample name)
  | .list [.text "function", .text run] => some (.function run)
  | .table entries => do
    guard (Document.isUnique entries "type")
    match (← entries.lookup "type") with
    | .text "sample" =>
      guard (Document.isUnique entries "name")
      return .sample (← (← entries.lookup "name").text?)
    | .text "function" =>
      guard (Document.isUnique entries "run")
      return .function (← (← entries.lookup "run").text?)
    | _ => none
  | _ => none

namespace Options

def nullable {α : Type} (read : Document → Option α) : Document → Option (Option α)
  | .null => some none
  | d => (read d).map some

/-- Bindings by name; of two with one name the last counts. -/
def bindings? (d : Document) : Option (Named Binding) := do
  let entries ← d.table?
  let bindings ← entries.mapM fun (name, value) => (Binding.ofDocument? value).map (name, ·)
  return bindings.foldl (fun all (name, binding) => Named.insert name binding all) []

/-- The names of the options, in the order of a list. -/
def fieldNames : List String :=
  ["key", "scale", "octave", "duration", "modifier", "bpm", "seed", "bindings"]

/-- Options with one of them taken from a document. -/
def withField (o : Options) (name : String) (d : Document) : Option Options :=
  match name with
  | "key" => do return { o with key := ← nullable Key.ofDocument? d }
  | "scale" => do return { o with scale := ← nullable Scale.ofDocument? d }
  | "octave" => do return { o with octave := ← d.int32? }
  | "duration" => do return { o with duration := ← d.number? }
  | "modifier" => do return { o with modifier := ← d.int32? }
  | "bpm" => do return { o with bpm := ← d.number? }
  | "seed" => do return { o with seed := (← nullable Document.nat64? d).map UInt64.ofNat }
  | "bindings" => do return { o with bindings := ← bindings? d }
  | _ => some o

def ofDocument? : Document → Option Options
  | .table entries => do
    guard (fieldNames.all (Document.isUnique entries))
    entries.foldlM (fun o (name, d) => withField o name d) {}
  | .list items => do
    guard (items.length ≤ fieldNames.length)
    (fieldNames.zip items).foldlM (fun o (name, d) => withField o name d) {}
  | _ => none

end Options

end NumberedMelody
