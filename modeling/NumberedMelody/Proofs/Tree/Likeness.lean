/-
  NumberedMelody/Proofs/Tree/Likeness.lean
  ========================================
  **Trees side by side.**  Two trees are alike if they are the same but for
  uses of variables that are written out in the second one, the texts of lists
  then, and what may stand for one another among events and numerals.  A
  relation of this kind also says which names are used and assigned, so that
  contexts need to agree on those names only.

  Where a tree has a single node in a place of its own (a repeat count, the
  sides of an operator, the lists of a rhythm) no use is written out there.
-/
import NumberedMelody.Proofs.Evaluation.Congruence
import NumberedMelody.Proofs.Evaluation.Numerals
import NumberedMelody.Proofs.Tree.Shape

namespace NumberedMelody

/-- Two operations with related operands. -/
inductive Operation.Rel {ν : Type} (R : ν → ν → Prop) : Operation ν → Operation ν → Prop where
  | binary (op : ListOperator) {right right' : Option ν} (h : Option.Rel R right right') :
    Rel R (.binary op right) (.binary op right')
  | map (expr : Expr) : Rel R (.map expr) (.map expr)

/-- In what two trees may differ, and which names they use and assign. -/
structure Likeness where
  /-- The uses of a name may be written out as a node. -/
  writtenOut : String → Node → Prop := fun _ _ => False
  used : String → Prop := fun _ => True
  assigned : String → Prop := fun _ => True
  /-- Events that are taken for one another. -/
  event : Event → Event → Prop := (· = ·)
  numeral : KeptNumeral → KeptNumeral → Prop := (· = ·)

/-- No use is written out, so that texts are the same as well. -/
def Likeness.Literal (L : Likeness) : Prop := ∀ name value, ¬ L.writtenOut name value

namespace Node

/-- The name that the node assigns. -/
def assigned? : Node → Option String
  | .assignment _ name _ _ => some name
  | _ => none

/-- The names that the node uses. -/
def used : Node → List String
  | .variable _ name => [name]
  | .together _ names => names
  | _ => []

@[simp] theorem assigned?_unplayed (node : Node) : node.unplayed.assigned? = node.assigned? := by
  cases node <;> simp only [unplayed, assigned?]

/-- A name is assigned nowhere in a node. -/
abbrev NeverAssigns (name : String) (node : Node) : Prop := node.Everywhere fun inside => inside.assigned? ≠ some name

/-- A node without inner nodes that names no variable and plays nothing that was
    made before. -/
def isPlain : Node → Bool
  | .event _ => false
  | .numeral _ => false
  | .sequence _ _ _ _ => false
  | .cycle _ _ _ => false
  | .subdivision _ _ _ => false
  | .repetition _ _ _ _ => false
  | .operations _ _ _ => false
  | .euclid _ _ _ _ _ _ => false
  | .assignment _ _ _ _ => false
  | .variable _ _ => false
  | .together _ _ => false
  | _ => true

/-- Two trees are alike; a loose one may be a use that is written out. -/
inductive Alike (L : Likeness) : Bool → Node → Node → Prop where
  | writtenOut (text : String) {name : String} {value : Node} (h : L.writtenOut name value) :
    Alike L true (.variable text name) value
  | plain (loose : Bool) {node : Node} (h : node.isPlain = true) : Alike L loose node node
  | event (loose : Bool) {e e' : Event} (h : L.event e e') : Alike L loose (.event e) (.event e')
  | numeral (loose : Bool) {k k' : KeptNumeral} (h : L.numeral k k') : Alike L loose (.numeral k) (.numeral k')
  | sequence (loose : Bool) {text text' : String} (overrides : Overrides) (isList : Bool) {values values' : List Node}
    (htext : L.Literal → text = text') (hvalues : List.Forall₂ (Alike L true) values values') :
    Alike L loose (.sequence text overrides isList values) (.sequence text' overrides isList values')
  | cycle (loose : Bool) (text : String) (visits : Nat) {values values' : List Node}
    (hvalues : List.Forall₂ (Alike L true) values values') :
    Alike L loose (.cycle text values visits) (.cycle text values' visits)
  | subdivision (loose : Bool) (text : String) (overrides : Overrides) {values values' : List Node}
    (hvalues : List.Forall₂ (Alike L true) values values') :
    Alike L loose (.subdivision text overrides values) (.subdivision text overrides values')
  | repetition (loose : Bool) (text : String) (replayed : Bool) {values values' : List Node} {count count' : Node}
    (hvalues : List.Forall₂ (Alike L true) values values') (hcount : Alike L false count count') :
    Alike L loose (.repetition text replayed values count) (.repetition text replayed values' count')
  | operations (loose : Bool) (text : String) {left left' : Node} {steps steps' : List (Operation Node)}
    (hleft : Alike L false left left') (hsteps : List.Forall₂ (Operation.Rel (Alike L false)) steps steps') :
    Alike L loose (.operations text left steps) (.operations text left' steps')
  | euclid (loose : Bool) (text : String) (pulses length : Nat) (rotate : Int) {onset onset' : Node}
    {offset offset' : Option Node} (honset : Alike L false onset onset')
    (hoffset : Option.Rel (Alike L false) offset offset') :
    Alike L loose (.euclid text pulses length rotate onset offset) (.euclid text pulses length rotate onset' offset')
  | assignment (loose : Bool) (text : String) {name : String} (eager : Bool) {value value' : Node}
    (hname : L.assigned name) (hvalue : Alike L true value value') :
    Alike L loose (.assignment text name eager value) (.assignment text name eager value')
  | «variable» (loose : Bool) (text : String) {name : String} (hname : L.used name) :
    Alike L loose (.variable text name) (.variable text name)
  | together (loose : Bool) (text : String) {names : List String} (hnames : ∀ name ∈ names, L.used name) :
    Alike L loose (.together text names) (.together text names)

end Node

/-- What is written out is a value that no run turns into anything else that
    would have to be written out, for a name that is assigned nowhere else.
    Events and numerals that are taken for one another are played alike. -/
structure Likeness.Lawful (L : Likeness) : Prop where
  isBlank : ∀ {name value}, L.writtenOut name value → value.isBlank = false
  played : ∀ {name value other}, L.writtenOut name value → other.unplayed = value.unplayed → L.writtenOut name other
  unassigned : ∀ {name value}, L.writtenOut name value → ¬ L.assigned name
  events : Event.Congruence L.event
  sameNumeral : ∀ k, L.numeral k k
  text : ∀ {k k'}, L.numeral k k' → k.numeral.text = k'.numeral.text
  answers : ∀ {k k'}, L.numeral k k' → ∀ {context context' : Context}, context.options = context'.options →
    SameResult (fun c c' => L.event (.chord c) (.chord c')) (k.play context).1 (k'.play context').1 ∧
      L.numeral (k.play context).2 (k'.play context').2

/-- What is true of any likeness of events and numerals that are the same. -/
theorem Likeness.Lawful.of_literal {L : Likeness} (hL : L.Literal) (hevent : L.event = (· = ·))
    (hnumeral : L.numeral = (· = ·)) : L.Lawful where
  isBlank h := (hL _ _ h).elim
  played h := (hL _ _ h).elim
  unassigned h := (hL _ _ h).elim
  events := hevent ▸ Event.congruence_eq
  sameNumeral _ := hnumeral ▸ rfl
  text := by
    rw [hnumeral]
    rintro k _ rfl
    rfl
  answers := by
    rw [hnumeral, hevent]
    rintro k _ rfl context context' hoptions
    rw [k.play_congr hoptions]
    exact ⟨.refl (R := fun c c' => Event.chord c = .chord c') (fun _ => rfl) _, rfl⟩

/-! ### Nodes that are alike -/

section Nodes

variable {L : Likeness} {loose : Bool} {node node' : Node}

/-- Trees that are alike are so in any place, unless one is a use that the other writes out. -/
theorem Node.Alike.anywhere_or (h : node.Alike L loose node') :
    (∀ loose, node.Alike L loose node') ∨
      ∃ text name, loose = true ∧ node = .variable text name ∧ L.writtenOut name node' := by
  cases h with
  | writtenOut text h => exact .inr ⟨text, _, rfl, rfl, h⟩
  | plain _ h => exact .inl fun _ => .plain _ h
  | event _ h => exact .inl fun _ => .event _ h
  | numeral _ h => exact .inl fun _ => .numeral _ h
  | sequence _ overrides isList htext hvalues => exact .inl fun _ => .sequence _ _ _ htext hvalues
  | cycle _ text visits hvalues => exact .inl fun _ => .cycle _ _ _ hvalues
  | subdivision _ text overrides hvalues => exact .inl fun _ => .subdivision _ _ _ hvalues
  | repetition _ text replayed hvalues hcount => exact .inl fun _ => .repetition _ _ _ hvalues hcount
  | operations _ text hleft hsteps => exact .inl fun _ => .operations _ _ hleft hsteps
  | euclid _ text pulses length rotate honset hoffset => exact .inl fun _ => .euclid _ _ _ _ _ honset hoffset
  | assignment _ text eager hname hvalue => exact .inl fun _ => .assignment _ _ _ hname hvalue
  | «variable» _ text hname => exact .inl fun _ => .variable _ _ hname
  | together _ text hnames => exact .inl fun _ => .together _ _ hnames

theorem Node.Alike.loosen (h : node.Alike L loose node') : node.Alike L true node' := by
  rcases h.anywhere_or with hany | ⟨text, name, -, rfl, hvalue⟩
  · exact hany true
  · exact .writtenOut text hvalue

/-- Where nothing is written out, trees that are alike are so in any place. -/
theorem Node.Alike.tighten (hliteral : L.Literal) (h : node.Alike L loose node') {loose' : Bool} :
    node.Alike L loose' node' := by
  rcases h.anywhere_or with hany | ⟨text, name, -, -, hvalue⟩
  · exact hany _
  · exact absurd hvalue (hliteral _ _)

theorem Node.Alike.text_eq (hL : L.Lawful) (hliteral : L.Literal) (h : node.Alike L loose node') :
    node.text = node'.text := by
  cases h with
  | writtenOut text h => exact absurd h (hliteral _ _)
  | event _ h => exact hL.events.text h
  | numeral _ h => exact hL.text h
  | sequence _ overrides isList htext hvalues => exact htext hliteral
  | _ => rfl

theorem Node.Alike.isBlank_eq (hL : L.Lawful) (h : node.Alike L loose node') : node.isBlank = node'.isBlank := by
  cases h with
  | writtenOut text h => exact (hL.isBlank h).symm
  | _ => rfl

theorem Node.Alike.listOverrides_eq (h : node.Alike L false node') : node.listOverrides = node'.listOverrides := by
  cases h <;> rfl

theorem alike_filter (hL : L.Lawful) {nodes nodes' : List Node} (h : List.Forall₂ (Node.Alike L loose) nodes nodes') :
    List.Forall₂ (Node.Alike L loose) (nodes.filter (!·.isBlank)) (nodes'.filter (!·.isBlank)) :=
  List.rel_filter (fun node node' hnode => by simp only [hnode.isBlank_eq hL]) h

/-- The elements of lists that are alike.  A node that is no list is its own
    element, and no use is written out for it. -/
theorem Node.Alike.elements (hL : L.Lawful) (h : node.Alike L false node') :
    List.Forall₂ (Node.Alike L node.isSequence) node.elements node'.elements := by
  have hself := h
  cases h with
  | sequence _ overrides isList htext hvalues => exact alike_filter hL hvalues
  | plain _ hplain =>
    cases node with
    | sequence text overrides isList values => cases hplain
    | _ => exact .cons hself .nil
  | _ => exact .cons hself .nil

theorem loosen_all {nodes nodes' : List Node} (h : List.Forall₂ (Node.Alike L loose) nodes nodes') :
    List.Forall₂ (Node.Alike L true) nodes nodes' :=
  h.imp fun _ _ hnode => hnode.loosen

/-- A node is like itself if it uses and assigns names of the likeness only. -/
theorem Node.alike_self {L : Likeness} (hL : L.Lawful) {node : Node}
    (h : node.Everywhere fun inside =>
      (∀ name ∈ inside.used, L.used name) ∧ ∀ name ∈ inside.assigned?, L.assigned name) :
    ∀ loose, node.Alike L loose node := by
  induction h with
  | @intro node here _ ih =>
    intro loose
    have hall : ∀ nodes : List Node, (∀ child ∈ nodes, child ∈ node.children) →
        List.Forall₂ (Node.Alike L true) nodes nodes :=
      fun nodes hnodes => List.forall₂_same.mpr fun child hchild => ih child (hnodes child hchild) true
    cases node with
    | event e => exact .event _ (hL.events.refl e)
    | numeral k => exact .numeral _ (hL.sameNumeral k)
    | sequence text overrides isList values => exact .sequence _ _ _ (fun _ => rfl) (hall values fun _ hmem => hmem)
    | cycle text values visits => exact .cycle _ _ _ (hall values fun _ hmem => hmem)
    | subdivision text overrides values => exact .subdivision _ _ _ (hall values fun _ hmem => hmem)
    | repetition text replayed values count =>
      exact .repetition _ _ _ (hall values fun _ hmem => List.mem_cons_of_mem _ hmem)
        (ih count (List.mem_cons_self ..) false)
    | operations text left steps =>
      refine .operations _ _ (ih left (List.mem_cons_self ..) false) (List.forall₂_same.mpr ?_)
      intro step hstep
      cases step with
      | map expr => exact .map expr
      | binary op right =>
        cases right with
        | none => exact .binary op .none
        | some right =>
          have hmem : right ∈ (Node.operations text left steps).children :=
            List.mem_cons_of_mem _ (List.mem_filterMap.mpr ⟨.binary op (some right), hstep, rfl⟩)
          exact .binary op (.some (ih right hmem false))
    | euclid text pulses length rotate onset offset =>
      have honset := ih onset (List.mem_cons_self ..) false
      cases offset with
      | none => exact .euclid _ _ _ _ _ honset .none
      | some offset => exact .euclid _ _ _ _ _ honset (.some (ih offset (by simp [children]) false))
    | assignment text name eager value =>
      exact .assignment _ _ _ (here.2 name rfl) (ih value (List.mem_singleton.mpr rfl) true)
    | «variable» text name => exact .variable _ _ (here.1 name (List.mem_singleton.mpr rfl))
    | together text names => exact .together _ _ here.1
    | _ => exact .plain _ rfl

/-! ### Trees that were played before -/

theorem forall₂_unplayed {nodes others : List Node} (h : Node.unplayedAll others = Node.unplayedAll nodes) :
    List.Forall₂ (fun node other => other.unplayed = node.unplayed) nodes others := by
  rw [Node.unplayedAll_eq_map, Node.unplayedAll_eq_map, ← forall₂_eq, List.forall₂_map_left_iff,
    List.forall₂_map_right_iff] at h
  exact h.flip

theorem rel_unplayedOption {node other : Option Node} (h : Node.unplayedOption other = Node.unplayedOption node) :
    Option.Rel (fun node other => other.unplayed = node.unplayed) node other := by
  cases node with
  | none =>
    cases other with
    | none => exact .none
    | some other => cases h
  | some node =>
    cases other with
    | none => cases h
    | some other => exact .some (Option.some.inj h)

/-- Nothing is played on a plain node. -/
theorem Node.eq_of_isPlain {node other : Node} (hplain : node.isPlain = true) (h : other.unplayed = node.unplayed) :
    other = node := by
  have hself : node.unplayed = node := by cases node <;> first | rfl | cases hplain
  rw [hself] at h
  subst h
  cases other <;> first | rfl | cases hplain

/-- What a node may hold for the trees that it is played to be alike. -/
def Likeness.Spans (L : Likeness) (node : Node) : Prop :=
  node.isCycle = false ∧ (∀ name ∈ node.used, L.used name) ∧ ∀ name ∈ node.assigned?, L.assigned name

/-- Trees without cycles that differ in kept chords alone are alike, as far as
    numerals are that were written alike. -/
theorem Node.alike_of_unplayed_eq {L : Likeness} (hL : L.Lawful)
    (hnumeral : ∀ {k k' : KeptNumeral}, k.numeral = k'.numeral → L.numeral k k') {node : Node}
    (h : node.Everywhere L.Spans) :
    ∀ {other : Node} (loose : Bool), other.unplayed = node.unplayed → node.Alike L loose other := by
  induction h with
  | @intro node here _ ih =>
    intro other loose hplayed
    have hall : ∀ {nodes others : List Node}, (∀ child ∈ nodes, child ∈ node.children) →
        unplayedAll others = unplayedAll nodes → List.Forall₂ (Node.Alike L true) nodes others := by
      intro nodes others hnodes hothers
      refine ((List.forall₂_and_left _ _).mpr ⟨hnodes, forall₂_unplayed hothers⟩).imp ?_
      rintro child other ⟨hchild, hother⟩
      exact ih child hchild true hother
    by_cases hplain : node.isPlain = true
    · rw [eq_of_isPlain hplain hplayed]
      exact .plain _ hplain
    cases node with
    | event e =>
      cases other <;> simp only [unplayed, reduceCtorEq, Node.event.injEq] at hplayed
      rw [hplayed]
      exact .event _ (hL.events.refl e)
    | numeral k =>
      cases other <;> simp only [unplayed, reduceCtorEq, Node.numeral.injEq, KeptNumeral.mk.injEq] at hplayed
      exact .numeral _ (hnumeral hplayed.1.symm)
    | sequence text overrides isList values =>
      cases other <;> simp only [unplayed, reduceCtorEq, Node.sequence.injEq] at hplayed
      obtain ⟨rfl, rfl, rfl, hvalues⟩ := hplayed
      exact .sequence _ _ _ (fun _ => rfl) (hall (fun _ hmem => hmem) hvalues)
    | cycle text values visits => cases here.1
    | subdivision text overrides values =>
      cases other <;> simp only [unplayed, reduceCtorEq, Node.subdivision.injEq] at hplayed
      obtain ⟨rfl, rfl, hvalues⟩ := hplayed
      exact .subdivision _ _ _ (hall (fun _ hmem => hmem) hvalues)
    | repetition text replayed values count =>
      cases other <;> simp only [unplayed, reduceCtorEq, Node.repetition.injEq] at hplayed
      obtain ⟨rfl, rfl, hvalues, hcount⟩ := hplayed
      exact .repetition _ _ _ (hall (fun _ hmem => List.mem_cons_of_mem _ hmem) hvalues)
        (ih count (List.mem_cons_self ..) false hcount)
    | operations text left steps =>
      cases other <;> simp only [unplayed, reduceCtorEq, Node.operations.injEq] at hplayed
      obtain ⟨rfl, hleft, hsteps⟩ := hplayed
      refine .operations _ _ (ih left (List.mem_cons_self ..) false hleft) ?_
      rw [unplayedSteps_eq_map, unplayedSteps_eq_map, ← forall₂_eq, List.forall₂_map_left_iff,
        List.forall₂_map_right_iff] at hsteps
      refine ((List.forall₂_and_left _ _).mpr ⟨fun _ hmem => hmem, hsteps.flip⟩).imp ?_
      rintro step step' ⟨hmem, hstep⟩
      cases step with
      | map expr =>
        cases step' <;> simp only [unplayedStep, reduceCtorEq, Operation.map.injEq] at hstep
        rw [hstep]
        exact .map expr
      | binary op right =>
        cases step' <;> simp only [unplayedStep, reduceCtorEq, Operation.binary.injEq] at hstep
        obtain ⟨rfl, hright⟩ := hstep
        cases rel_unplayedOption hright with
        | none => exact .binary _ .none
        | @some right _ hsame =>
          have hchild : right ∈ (Node.operations "" left steps).children :=
            List.mem_cons_of_mem _ (List.mem_filterMap.mpr ⟨_, hmem, rfl⟩)
          exact .binary _ (.some (ih right hchild false hsame))
    | euclid text pulses length rotate onset offset =>
      cases other <;> simp only [unplayed, reduceCtorEq, Node.euclid.injEq] at hplayed
      obtain ⟨rfl, rfl, rfl, rfl, honset, hoffset⟩ := hplayed
      have hon := ih onset (List.mem_cons_self ..) false honset
      cases rel_unplayedOption hoffset with
      | none => exact .euclid _ _ _ _ _ hon .none
      | @some offset _ hsame => exact .euclid _ _ _ _ _ hon (.some (ih offset (by simp [children]) false hsame))
    | assignment text name eager value =>
      cases other <;> simp only [unplayed, reduceCtorEq, Node.assignment.injEq] at hplayed
      obtain ⟨rfl, rfl, rfl, hvalue⟩ := hplayed
      exact .assignment _ _ _ (here.2.2 _ rfl) (ih value (List.mem_singleton.mpr rfl) true hvalue)
    | «variable» text name =>
      cases other <;> simp only [unplayed, reduceCtorEq, Node.variable.injEq] at hplayed
      obtain ⟨rfl, rfl⟩ := hplayed
      exact .variable _ _ (here.2.1 _ (List.mem_singleton.mpr rfl))
    | together text names =>
      cases other <;> simp only [unplayed, reduceCtorEq, Node.together.injEq] at hplayed
      obtain ⟨rfl, rfl⟩ := hplayed
      exact .together _ _ here.2.1
    | _ => exact absurd rfl hplain

end Nodes

end NumberedMelody
