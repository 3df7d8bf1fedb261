/-
  NumberedMelody/Config/Toml.lean
  ===============================
  **Reading TOML documents.**  A document is a list of sections, each a header
  and the entries below it; building the table from the sections refuses
  whatever is defined twice.
-/
import NumberedMelody.Config.TomlScalar

namespace NumberedMelody.Toml

open Reader

/-! ### Sections -/

def blanks : Reader Unit := (fun _ => ()) <$> many (oneOf " \t")

def comment : Reader Unit := do
  let _ ← char '#'
  let _ ← many (satisfy isPlain)
  return ()

def gap : Reader Unit :=
  (fun _ => ()) <$> many (firstOf [(fun _ => ()) <$> oneOf " \t", lineEnd, comment])

def keyPart : Reader String :=
  firstOf
    [basicString, literalString,
      String.ofList <$> run1 fun c => c.isAlphanum || c = '_' || c = '-']

/-- Lists, tables and the parts of a key may be nested this deep. -/
def depthLimit : Nat := 79

/-- A key of one part or more with points between them. -/
def key : Reader (List String) :=
  verify (fun parts => parts.length ≤ depthLimit) do
    let first ← keyPart
    let more ← many do
      blanks
      let _ ← char '.'
      blanks
      keyPart
    return first :: more

/-- Entries with the values that they give to keys. -/
abbrev Entries := List (List String × Document)

/-- A key, an equals sign and a value. -/
def entry (value : Reader Document) : Reader (List String × Document) := do
  let key ← key
  blanks
  let _ ← char '='
  blanks
  let value ← value
  return (key, value)

/-! ### Tables under construction -/

/-- How a table came about. -/
inductive Origin where
  /-- On the way to a longer header. -/
  | onTheWay
  /-- By a header of its own. -/
  | header
  /-- By a key with points. -/
  | dotted
  deriving DecidableEq

/-- A value, a table that may still grow, or a list of tables, the last first. -/
inductive Growing where
  | leaf (value : Document)
  | table (origin : Origin) (entries : List (String × Growing))
  | tables (elements : List (List (String × Growing)))
  deriving Inhabited

mutual

def Growing.finished : Growing → Document
  | .leaf value => value
  | .table _ entries => .table (finishedEntries entries)
  | .tables elements => .list (finishedTables elements).reverse

def finishedEntries : List (String × Growing) → List (String × Document)
  | [] => []
  | (name, value) :: more => (name, value.finished) :: finishedEntries more

def finishedTables : List (List (String × Growing)) → List Document
  | [] => []
  | entries :: more => .table (finishedEntries entries) :: finishedTables more

end

/-- Entries under construction. -/
abbrev Growth := List (String × Growing)

/-- Replace or add the entry of a name. -/
def update (name : String) (f : Option Growing → Option Growing) : Growth → Option Growth
  | [] => (f none).map fun value => [(name, value)]
  | (other, value) :: more =>
    if other = name then (f (some value)).map fun value => (other, value) :: more
    else (update name f more).map ((other, value) :: ·)

/-- Give a key a value.  Its last part must be free, and the table that takes
    it must be the one in which the key stands or have come about by a key with
    points; `isOpen` says so.  The way there may lead through tables on the way
    to a header and through the last table of a list. -/
def define (isOpen : Bool) : List String → Document → Growth → Option Growth
  | [], _, _ => none
  | [name], value, entries =>
    update name (fun present => if isOpen && present.isNone then some (.leaf value) else none) entries
  | name :: more, value, entries =>
    update name
      (fun
        | none => (define true more value []).map (.table .dotted)
        | some (.table .dotted inner) => (define true more value inner).map (.table .dotted)
        | some (.table .onTheWay inner) => (define false more value inner).map (.table .onTheWay)
        | some (.tables (last :: others)) => (define false more value last).map fun last => .tables (last :: others)
        | some _ => none)
      entries

/-- Give the keys of some entries their values. -/
def defineAll (new : Entries) (entries : Growth) : Option Growth :=
  new.foldlM (fun entries (key, value) => define true key value entries) entries

/-- The table that an inline table stands for. -/
def inlineTable (new : Entries) : Option Document :=
  (defineAll new []).map fun entries => .table (finishedEntries entries)

/-- Change the entries below a header; `close` says what becomes of the last part. -/
def below (close : Option Growing → Option Growing) : List String → Growth → Option Growth
  | [], _ => none
  | [name], entries => update name close entries
  | name :: more, entries =>
    update name
      (fun
        | none => (below close more []).map (.table .onTheWay)
        | some (.table origin inner) => (below close more inner).map (.table origin)
        | some (.tables (last :: others)) => (below close more last).map fun last => .tables (last :: others)
        | some _ => none)
      entries

/-- A header in single brackets: a table that no other header has opened. -/
def openTable (new : Entries) : Option Growing → Option Growing
  | none => (defineAll new []).map (.table .header)
  | some (.table .onTheWay entries) => (defineAll new entries).map (.table .header)
  | some _ => none

/-- A header in double brackets: one table more in a list of tables. -/
def openElement (new : Entries) : Option Growing → Option Growing
  | none => (defineAll new []).map fun entries => .tables [entries]
  | some (.tables elements) => (defineAll new []).map fun entries => .tables (entries :: elements)
  | some _ => none

/-! ### Values -/

/-- Items with commas between them; a last comma may follow them. -/
def array (value : Reader Document) : Reader Document := do
  let _ ← char '['
  gap
  let items ← optional do
    let first ← value
    let more ← many do
      gap
      let _ ← char ','
      gap
      value
    gap
    let _ ← optional (char ',')
    gap
    return first :: more
  let _ ← char ']'
  return .list (items.getD [])

def inline (value : Reader Document) : Reader Document :=
  mapSome inlineTable do
    let _ ← char '\x7b'
    blanks
    let entries ← optional do
      let first ← entry value
      let more ← many do
        blanks
        let _ ← char ','
        blanks
        entry value
      blanks
      return first :: more
    let _ ← char '\x7d'
    return entries.getD []

/-- A value with lists and tables in it to a depth of nesting. -/
def valueTo : Nat → Reader Document
  | 0 => scalar
  | depth + 1 => firstOf [scalar, array (valueTo depth), inline (valueTo depth)]

/-! ### Documents -/

/-- What a line of a document says. -/
inductive Line where
  | nothing
  | entry (key : List String) (value : Document)
  | table (key : List String)
  | element (key : List String)

/-- The end of a line, after blanks and a comment. -/
def endOfLine : Reader Unit := do
  blanks
  let _ ← optional comment
  firstOf [lineEnd, atEnd]

def header (opening closing : List Char) : Reader (List String) := do
  exactly opening
  blanks
  let key ← key
  blanks
  exactly closing
  return key

/-- One line.  A document ends without a line end or after one. -/
def line : Reader Line := do
  fun text => if text.isEmpty then none else some ((), text)
  blanks
  let line ← firstOf
    [Line.element <$> header ['[', '['] [']', ']'],
      Line.table <$> header ['['] [']'],
      (fun (key, value) => Line.entry key value) <$> entry (valueTo depthLimit),
      pure .nothing]
  endOfLine
  return line

/-- The entries before the first header, and the lines from there on. -/
def leadingEntries : List Line → Entries × List Line
  | .nothing :: more => leadingEntries more
  | .entry key value :: more =>
    let (entries, rest) := leadingEntries more
    ((key, value) :: entries, rest)
  | rest => ([], rest)

/-- Build the sections that some lines open. -/
def addSections : List Line → Growth → Option Growth
  | [], entries => some entries
  | .table key :: more, entries => (below (openTable (leadingEntries more).1) key entries).bind (addSections more)
  | .element key :: more, entries => (below (openElement (leadingEntries more).1) key entries).bind (addSections more)
  | _ :: more, entries => addSections more entries

/-- A mark of the byte order, which may stand in front of a document. -/
def byteOrderMark : Char := '\ufeff'

def read? (text : String) : Option Document := do
  let (_, content) ← optional (char byteOrderMark) text.toList
  let (lines, rest) ← many line content
  guard rest.isEmpty
  let top ← defineAll (leadingEntries lines).1 []
  let entries ← addSections lines top
  return .table (finishedEntries entries)

end NumberedMelody.Toml
