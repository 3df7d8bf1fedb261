/-
  NumberedMelody/Proofs/Grammar/ListOperations.lean
  =================================================
  **Operations behind a list.**  A list is marks and a pattern in round brackets,
  and its closing bracket ends it whatever follows, a separator or not
  (`ListText.list_append`).  So the text of a list is read as the same list when
  operations follow it, and the whole is one item: that list and the operations
  (`readPattern_operations`).
-/
import NumberedMelody.Proofs.Grammar.Juxtaposition
import NumberedMelody.Proofs.Grammar.Written

namespace NumberedMelody

open Reader

/-- Items in round brackets. -/
def Node.isList : Node → Bool
  | .sequence _ _ isList _ => isList
  | _ => false

theorem Node.eq_sequence_of_isList {node : Node} (h : node.isList = true) :
    ∃ text overrides values, node = .sequence text overrides true values := by
  cases node with
  | sequence text overrides isList values =>
    obtain rfl : isList = true := h
    exact ⟨text, overrides, values, rfl⟩
  | _ => cases h

namespace Grammar

/-! ### Patterns in front of a closing bracket -/

section Patterns

variable {text rest more : List Char} {nodes : List Node}

/-- Items close every group that they open. -/
theorem items_leads (h : items text = some (nodes, rest)) :
    ∃ front, text = front ++ rest ∧ (Place.inGroups 0).after front = some (.inGroups 0) := by
  apply many_induction (p := item)
    (motive := fun text _ rest => ∃ front, text = front ++ rest ∧
      (Place.inGroups 0).after front = some (.inGroups 0)) _ _ h
  · intro text _
    exact ⟨[], rfl, rfl⟩
  · rintro text node mid nodes rest hnode - ⟨front', rfl, hfront'⟩
    obtain ⟨front, rfl, hfront⟩ := item_leads hnode
    exact ⟨front ++ front', (List.append_assoc ..).symm, (Place.after_append hfront front').trans hfront'⟩

/-- A closing bracket starts no item, and the text in front of it may be read on its own. -/
theorem meets_round (h : (Place.inGroups 0).after text = some (.inGroups 0)) (more : List Char) :
    Meets .closing (.inGroups 0) text (')' :: more) :=
  ⟨h, ')', by decide, more, rfl, fun hseparator => absurd hseparator (by decide)⟩

theorem items_at_round (more : List Char) : items (')' :: more) = some ([], ')' :: more) := by
  have hblank : blank (')' :: more) = none := by
    have hisSome := blank_isSome ')' more
    rwa [show Text.isSeparator ')' = false from rfl, Option.isSome_eq_false_iff, Option.isNone_iff_eq_none] at hisSome
  apply items_of_none
  rw [item_eq, itemOver_apply, hblank]
  exact solid_of_meets (meets_round rfl more)

/-- Items that end at a closing bracket cover the text in front of it. -/
theorem items_of_closed (hmeets : Meets .closing (.inGroups 0) text more)
    (h : items (text ++ more) = some (nodes, more)) : items text = some (nodes, []) := by
  induction hlength : text.length using Nat.strongRecOn generalizing text nodes with
  | ind length ih =>
    cases text with
    | nil =>
      cases hfirst : item more with
      | none =>
        rw [List.nil_append, items_of_none hfirst] at h
        obtain ⟨rfl, -⟩ := Prod.mk.inj (Option.some.inj h)
        rfl
      | some pair =>
        -- an item would have taken something
        obtain ⟨node, rest⟩ := pair
        rw [List.nil_append, items_cons hfirst] at h
        obtain ⟨⟨later, unread⟩, hlater, heq⟩ := Option.map_eq_some_iff.mp h
        obtain ⟨-, rfl⟩ := Prod.mk.inj heq
        have hread : many item rest = some (later, unread) := hlater
        exact absurd (Productive.shorter hfirst) (Nat.not_lt.mpr (Lossless.length_le hread))
    | cons c text =>
      have hitem := item_append (List.cons_ne_nil c text) hmeets
      cases hfirst : item (c :: text) with
      | none =>
        rw [hfirst] at hitem
        rw [items_of_none hitem] at h
        exact absurd (List.append_left_eq_self.mp (Prod.mk.inj (Option.some.inj h)).2) (List.cons_ne_nil c text)
      | some pair =>
        obtain ⟨node, rest⟩ := pair
        rw [hfirst] at hitem
        rw [items_cons hitem] at h
        obtain ⟨⟨later, unread⟩, hlater, heq⟩ := Option.map_eq_some_iff.mp h
        obtain ⟨rfl, rfl⟩ := Prod.mk.inj heq
        obtain ⟨front, hsplit, hfront⟩ := item_leads hfirst
        have hrest : Meets .closing (.inGroups 0) rest unread := (hsplit ▸ hmeets).from hfront
        have hmore := ih rest.length (hlength ▸ Productive.shorter hfirst) hrest hlater rfl
        rw [items_cons hfirst, hmore]
        rfl

end Patterns

/-! ### Lists -/

/-- The text of a list: marks in front of a pattern in round brackets. -/
def ListText (text : List Char) (overrides : Overrides) (values : List Node) : Prop :=
  ∃ front inside, text = front ++ '(' :: (inside ++ [')']) ∧ marks front = some (overrides, []) ∧
    items inside = some (values, [])

variable {text : List Char} {overrides : Overrides} {values : List Node}

theorem listText_of_list {taken : String} (h : list item text = some (.sequence taken overrides true values, [])) :
    ListText text overrides values ∧ taken = String.ofList text := by
  obtain ⟨⟨taken', overrides', values'⟩, mid, hconsumed, hpure⟩ := bind_eq_some.mp h
  obtain ⟨heq, rfl⟩ := pure_eq_some.mp hpure
  obtain ⟨rfl, rfl, -, rfl⟩ := Node.sequence.inj heq
  obtain ⟨htaken, hgroup⟩ := consumed_eq_some.mp hconsumed
  obtain ⟨overrides, afterMarks, hmarks, hbetween⟩ := bind_eq_some.mp hgroup
  obtain ⟨values, afterValues, hvalues, hpure⟩ := bind_eq_some.mp hbetween
  obtain ⟨hpair, rfl⟩ := pure_eq_some.mp hpure
  obtain ⟨rfl, rfl⟩ := Prod.mk.inj hpair
  obtain ⟨between, rfl, hmany⟩ := between_eq_some.mp hvalues
  obtain ⟨front, rfl, hfront⟩ := marks_of_opening (.inl rfl) hmarks
  obtain ⟨inside, rfl, hinside⟩ := items_leads hmany
  refine ⟨⟨front, inside, rfl, hfront, items_of_closed (meets_round hinside []) hmany⟩, ?_⟩
  rw [htaken]
  simp

namespace ListText

/-- **A list ends with its closing bracket**, whatever follows. -/
theorem list_append (h : ListText text overrides values) (more : List Char) :
    list item (text ++ more) = some (.sequence (String.ofList text) overrides true values, more) := by
  obtain ⟨front, inside, rfl, hfront, hinside⟩ := h
  have hopening : marks (front ++ '(' :: (inside ++ ')' :: more)) =
      some (overrides, '(' :: (inside ++ ')' :: more)) := marks_append (.inl rfl) hfront _
  have hvalues : items (inside ++ ')' :: more) = some (values, ')' :: more) := by
    rw [items_append hinside (meets_round (whole_of_items hinside) more), items_at_round]
    simp
  have hgroup : (do
      let overrides ← marks
      let values ← between '(' ')' (many item)
      return (overrides, values) : Reader (Overrides × List Node)) (front ++ '(' :: (inside ++ ')' :: more)) =
        some ((overrides, values), more) :=
    bind_eq_some.mpr ⟨overrides, _, hopening, bind_eq_some.mpr
      ⟨values, more, between_eq_some.mpr ⟨_, rfl, hvalues⟩, rfl⟩⟩
  have hassoc : front ++ '(' :: (inside ++ [')']) ++ more = front ++ '(' :: (inside ++ ')' :: more) := by simp
  rw [hassoc]
  refine bind_eq_some.mpr ⟨(String.ofList _, overrides, values), more, consumed_eq_some.mpr ⟨?_, hgroup⟩, rfl⟩
  rw [String.toList_ofList, hassoc]

end ListText

/-! ### Lists among the items -/

/-- No list is recognised. -/
abbrev NoList (p : Reader Node) : Prop := Yields (fun node => node.isList = false) p

/-- The rules that are tried before lists. -/
theorem earlier_noList :
    ∀ p ∈ [blank, bar, assignment item, together, variableUse, repetition item '[' ']' true,
      repetition item '(' ')' false, randomInteger], NoList p := by
  simp only [List.forall_mem_cons]
  exact ⟨.map_any fun _ => rfl, .map_any fun _ => rfl, .after fun _ => .pure rfl, .after fun _ => .pure rfl,
    .map_any fun _ => rfl, .after fun _ => .pure rfl, .after fun _ => .pure rfl, .after fun _ => .pure rfl,
    List.forall_mem_nil _⟩

/-- The rules that are tried after lists. -/
theorem later_noList :
    ∀ p ∈ [subdivision item, control, block, range, numeral, Grammar.rest, randomPitch, chord, pitch, cycle item],
      NoList p := by
  simp only [List.forall_mem_cons]
  exact ⟨.after fun _ => .pure rfl, .after fun _ => .pure rfl, .after fun _ => .pure rfl, .after fun _ => .pure rfl,
    .after fun _ => .pure rfl, .after fun _ => .pure rfl, .after fun _ => .pure rfl, .after fun _ => .pure rfl,
    .after fun _ => .pure rfl, .after fun _ => .pure rfl, List.forall_mem_nil _⟩

theorem rest_of_no_steps {rest : List Char} (h : listTail item text = some (.steps [], rest)) : rest = text := by
  rcases firstOf_cons_eq_some.mp h with hrhythm | ⟨-, hsteps⟩
  · obtain ⟨_, mid, -, hoffset⟩ := bind_eq_some.mp hrhythm
    obtain ⟨offset, mid', -, hpure⟩ := bind_eq_some.mp hoffset
    cases (pure_eq_some.mp hpure).1
  · obtain ⟨steps, hmany, heq⟩ :=
      map_eq_some.mp ((firstOf_cons_eq_some.mp hsteps).resolve_right fun hnothing => nomatch hnothing.2)
    obtain rfl := ListTail.steps.inj heq
    cases hfirst : operation item text with
    | none =>
      rw [many_of_none hfirst] at hmany
      exact (Prod.mk.inj (Option.some.inj hmany)).2.symm
    | some pair =>
      rw [many_cons hfirst, Option.map_eq_some_iff] at hmany
      obtain ⟨_, -, hmore⟩ := hmany
      cases (Prod.mk.inj hmore).1

/-- The node of a list and of what is read behind it. -/
def ListTail.node (taken : String) (left : Node) : ListTail → Node
  | .rhythm pulses length rotate offset => .euclid taken pulses length rotate left offset
  | .steps [] => left
  | .steps operations => .operations taken left operations

theorem listLike_eq_some {node : Node} {rest : List Char} (h : listLike item text = some (node, rest)) :
    ∃ taken left mid tail, list item text = some (left, mid) ∧ listTail item mid = some (tail, rest) ∧
      node = tail.node taken left := by
  obtain ⟨⟨taken, left, tail⟩, last, hconsumed, hpure⟩ := bind_eq_some.mp h
  obtain ⟨hnode, rfl⟩ := pure_eq_some.mp hpure
  obtain ⟨left', mid, hleft, hparts⟩ := bind_eq_some.mp (consumed_eq_some.mp hconsumed).2
  obtain ⟨tail', afterTail, htail, hpair⟩ := bind_eq_some.mp hparts
  obtain ⟨hsame, rfl⟩ := pure_eq_some.mp hpair
  obtain ⟨rfl, rfl⟩ := Prod.mk.inj hsame
  exact ⟨taken, left', mid, tail', hleft, htail, hnode.symm⟩

theorem listLike_of_tail {left : Node} {mid rest : List Char} {tail : ListTail}
    (hleft : list item text = some (left, mid)) (htail : listTail item mid = some (tail, rest)) :
    ∃ taken, taken ++ rest = text ∧ listLike item text = some (tail.node (String.ofList taken) left, rest) := by
  have hread : (do
      let left ← list item
      let tail ← listTail item
      return (left, tail) : Reader (Node × ListTail)) text = some ((left, tail), rest) :=
    bind_eq_some.mpr ⟨left, mid, hleft, bind_eq_some.mpr ⟨tail, rest, htail, rfl⟩⟩
  obtain ⟨taken, hsplit⟩ := Lossless.suffix hread
  have htaken : text = (String.ofList taken).toList ++ rest := by rw [String.toList_ofList, hsplit]
  refine ⟨taken, hsplit, bind_eq_some.mpr ⟨(String.ofList taken, left, tail), rest, ?_, rfl⟩⟩
  exact consumed_eq_some.mpr ⟨htaken, hread⟩

theorem list_of_listLike {node : Node} {rest : List Char} (hlist : node.isList = true)
    (h : listLike item text = some (node, rest)) : list item text = some (node, rest) := by
  obtain ⟨taken, left, mid, tail, hleft, htail, rfl⟩ := listLike_eq_some h
  cases tail with
  | rhythm pulses length rotate offset => cases hlist
  | steps operations =>
    cases operations with
    | nil =>
      rw [rest_of_no_steps htail]
      exact hleft
    | cons step more => cases hlist

/-- Nothing is recognised that is tried before lists. -/
structure NoneBeforeLists (text : List Char) : Prop where
  blank : blank text = none
  bar : bar text = none
  assignment : assignment item text = none
  together : together text = none
  variableUse : variableUse text = none
  replayed : repetition item '[' ']' true text = none
  repetition : repetition item '(' ')' false text = none
  randomInteger : randomInteger text = none

theorem item_eq_listLike (h : NoneBeforeLists text) {result : Node × List Char}
    (hlistLike : listLike item text = some result) : item text = some result := by
  rw [item_eq, itemOver_apply, h.blank]
  simp only [solid, firstOf, h.bar, h.assignment, h.together, h.variableUse, h.replayed, h.repetition,
    h.randomInteger, hlistLike]

/-- A list is recognised as one, and not as anything else. -/
theorem list_of_item {node : Node} {rest : List Char} (hlist : node.isList = true)
    (h : item text = some (node, rest)) : NoneBeforeLists text ∧ list item text = some (node, rest) := by
  have hnode : ¬node.isList = false := by rw [hlist]; decide
  rw [item_eq] at h
  obtain ⟨hnone, hlistLike⟩ := firstOf_append_cons_eq_some earlier_noList later_noList hnode h
  simp only [List.forall_mem_cons] at hnone
  obtain ⟨hblank, hbar, hassignment, htogether, hvariable, hreplayed, hrepetition, hbounds, -⟩ := hnone
  exact ⟨⟨hblank, hbar, hassignment, htogether, hvariable, hreplayed, hrepetition, hbounds⟩,
    list_of_listLike hlist hlistLike⟩

/-! ### The first sign -/

section Signs

variable {c : Char}

theorem blank_of_head (h : blank (c :: text) = none) (more : List Char) : blank (c :: more) = none := by
  have hseparator := blank_isSome c text
  rw [h] at hseparator
  rw [← Option.isNone_iff_eq_none, ← Option.isSome_eq_false_iff, blank_isSome]
  exact hseparator.symm

theorem bar_of_head (h : bar (c :: text) = none) (more : List Char) : bar (c :: more) = none := by
  cases hsign : c == '|' <;> simp_all [bar, map_apply, consumed, char, satisfy]

theorem variableName_of_variableUse (h : variableUse (c :: text) = none) (more : List Char) :
    variableName (c :: more) = none := by
  cases htest : c.isUpper && c != 'T' && c != 'E' with
  | true => simp [variableUse, map_apply, variableName, satisfy, htest] at h
  | false => simp [variableName, satisfy, htest]

theorem none_of_variableName (h : variableName text = none) :
    assignment item text = none ∧ together text = none ∧ variableUse text = none := by
  refine ⟨?_, ?_, ?_⟩
  · simp [assignment, consumed, bind, Reader.bind, h]
  · simp [together, consumed, bind, Reader.bind, h]
  · simp [variableUse, map_apply, h]

theorem repetition_of_ne {opening : Char} (h : c ≠ opening) (closing : Char) (replayed : Bool) (more : List Char) :
    repetition item opening closing replayed (c :: more) = none := by
  simp [repetition, consumed, bind, Reader.bind, exactly, char, satisfy, h]

/-- Marks do not begin with a sign that opens a group. -/
theorem ne_opening_of_marks {front : List Char} (h : marks (c :: front) = some (overrides, [])) {opening : Char}
    (hopening : opening = '(' ∨ opening = '[') : c ≠ opening := by
  rintro rfl
  rw [marks_before_opening hopening] at h
  cases (Prod.mk.inj (Option.some.inj h)).2

end Signs

/-- The rules that are tried before lists tell a list by its first sign, or inside
    its brackets, so what follows it does not matter. -/
theorem NoneBeforeLists.append (h : NoneBeforeLists text) (hlist : ListText text overrides values) (more : List Char) :
    NoneBeforeLists (text ++ more) := by
  obtain ⟨front, inside, rfl, hfront, hinside⟩ := hlist
  have hmeets := meets_round (whole_of_items hinside) more
  have hbounds := randomInteger_of_meets hfront hmeets
  have hassoc : front ++ '(' :: (inside ++ [')']) ++ more = front ++ '(' :: (inside ++ ')' :: more) := by simp
  rw [hassoc]
  cases front with
  | nil =>
    obtain ⟨hbar, hassignment, htogether, hvariable⟩ := unread_at_opening (.inl rfl) (inside ++ ')' :: more)
    exact ⟨rfl, hbar, hassignment, htogether, hvariable, rfl, repetition_of_meets '(' false (by decide) hmeets, hbounds⟩
  | cons c front =>
    obtain ⟨hassignment, htogether, hvariable⟩ := none_of_variableName (variableName_of_variableUse h.variableUse _)
    exact ⟨blank_of_head h.blank _, bar_of_head h.bar _, hassignment, htogether, hvariable,
      repetition_of_ne (ne_opening_of_marks hfront (.inr rfl)) _ _ _,
      repetition_of_ne (ne_opening_of_marks hfront (.inl rfl)) _ _ _, hbounds⟩

/-! ### Operations -/

theorem item_of_singleton {node : Node} (h : items text = some ([node], [])) :
    item text = some (node, []) := by
  cases hfirst : item text with
  | none =>
    rw [items_of_none hfirst] at h
    cases (Prod.mk.inj (Option.some.inj h)).1
  | some pair =>
    obtain ⟨first, rest⟩ := pair
    rw [items_cons hfirst] at h
    obtain ⟨⟨later, unread⟩, hlater, heq⟩ := Option.map_eq_some_iff.mp h
    obtain ⟨hnodes, rfl⟩ := Prod.mk.inj heq
    obtain ⟨rfl, rfl⟩ := List.cons.inj hnodes
    cases hrest : item rest with
    | none =>
      rw [items_of_none hrest] at hlater
      rw [(Prod.mk.inj (Option.some.inj hlater)).2]
    | some next =>
      rw [items_cons hrest] at hlater
      obtain ⟨_, -, hmore⟩ := Option.map_eq_some_iff.mp hlater
      cases (Prod.mk.inj hmore).1

theorem listLike_of_operations {left : Node} {mid : List Char} {steps : List (Operation Node)}
    (hleft : list item text = some (left, mid)) (htail : listTail item mid = some (.steps steps, []))
    (hsteps : steps ≠ []) : listLike item text = some (.operations (String.ofList text) left steps, []) := by
  obtain ⟨taken, hsplit, hread⟩ := listLike_of_tail hleft htail
  rw [List.append_nil] at hsplit
  rw [hread, hsplit]
  cases steps with
  | nil => exact absurd rfl hsteps
  | cons step more => rfl

/-- **A list with operations behind it is one item.** -/
theorem items_of_operations {left : Node} {more : List Char} {steps : List (Operation Node)}
    (hlist : left.isList = true) (hread : items text = some ([left], []))
    (htail : listTail item more = some (.steps steps, [])) (hsteps : steps ≠ []) :
    items (text ++ more) = some ([.operations (String.ofList (text ++ more)) left steps], []) := by
  obtain ⟨hnone, hleft⟩ := list_of_item hlist (item_of_singleton hread)
  obtain ⟨taken, overrides, values, rfl⟩ := Node.eq_sequence_of_isList hlist
  obtain ⟨htext, htaken⟩ := listText_of_list hleft
  rw [htaken]
  have hlistLike := listLike_of_operations (htext.list_append more) htail hsteps
  exact items_of_item (item_eq_listLike (hnone.append htext more) hlistLike)

/-! ### One operation -/

theorem operand_of_list {node : Node} (h : NoneBeforeLists text) (hlist : list item text = some (node, [])) :
    operand item text = some (node, []) := by
  simp only [operand, firstOf, h.randomInteger, hlist]

theorem listTail_of_steps {rest : List Char} {steps : List (Operation Node)} (hrhythm : rhythm text = none)
    (h : many (operation item) text = some (steps, rest)) : listTail item text = some (.steps steps, rest) := by
  refine firstOf_cons_eq_some.mpr (.inr ⟨?_, ?_⟩)
  · simp [bind, Reader.bind, hrhythm]
  · exact firstOf_of_some (map_eq_some.mpr ⟨steps, h, rfl⟩)

theorem listTail_of_operation {step : Operation Node} (hrhythm : rhythm text = none)
    (h : operation item text = some (step, [])) : listTail item text = some (.steps [step], []) := by
  have hnone : operation item [] = none := rfl
  apply listTail_of_steps hrhythm
  rw [many_cons h, many_of_none hnone]
  rfl

theorem rhythm_of_operator (op : ListOperator) (text : List Char) : rhythm (op.symbol.toList ++ text) = none := by
  cases op with
  | arithmetic op => cases op <;> rfl
  | _ => rfl

theorem operation_of_sign {c : Char} {op : ListOperator} (hsign : "+-*/%@#".toList.contains c = true)
    (hop : ListOperator.ofSymbol? c = some op) (hangle : c ≠ '<') (hbrace : c ≠ '\x7b') (text : List Char) :
    operation item (c :: text) =
      ((fun right => .binary op (some right)) <$> operand item : Reader (Operation Node)) text := by
  have hzip : exactly ['<', '>'] (c :: text) = none := by simp [exactly, Reader.bind, char, satisfy, hangle]
  have hmap : between '\x7b' '\x7d' Expr.read (c :: text) = none := by
    simp [between, bind, Reader.bind, char, satisfy, hbrace]
  have hread : mapSome ListOperator.ofSymbol? (oneOf "+-*/%@#") (c :: text) = some (op, text) :=
    mapSome_eq_some.mpr ⟨c, satisfy_eq_some.mpr ⟨rfl, hsign⟩, hop⟩
  unfold operation
  rw [firstOf_of_none (by simp [bind, Reader.bind, hzip]), firstOf_of_none (by simp [map_apply, hmap]),
    firstOf_singleton]
  simp only [bind, Reader.bind, hread]
  rfl

/-- Behind the sign of an operator, an operation is its operand. -/
theorem operation_of_operator (op : ListOperator) (text : List Char) :
    operation item (op.symbol.toList ++ text) =
      ((fun right => .binary op (some right)) <$> operand item : Reader (Operation Node)) text := by
  cases op with
  | zip => exact firstOf_of_later_none rfl
  | vertical => exact operation_of_sign rfl rfl (by decide) (by decide) text
  | horizontal => exact operation_of_sign rfl rfl (by decide) (by decide) text
  | arithmetic op => cases op <;> exact operation_of_sign rfl rfl (by decide) (by decide) text

theorem listTail_of_operator (op : ListOperator) {right : Node} (h : operand item text = some (right, [])) :
    listTail item (op.symbol.toList ++ text) = some (.steps [.binary op (some right)], []) := by
  apply listTail_of_operation (rhythm_of_operator op text)
  rw [operation_of_operator, map_apply, h]
  rfl

end Grammar

variable {text other : String} {left right : Node}

/-- Of a pattern that is one list, operations make one node. -/
theorem readPattern_operations {steps : List (Operation Node)} (hread : readPattern text = .ok [left])
    (hlist : left.isList = true) (htail : Grammar.listTail Grammar.item other.toList = some (.steps steps, []))
    (hsteps : steps ≠ []) : readPattern (text ++ other) = .ok [.operations (text ++ other) left steps] := by
  rw [readPattern_eq_ok] at hread ⊢
  have hitems := Grammar.items_of_operations hlist hread htail hsteps
  rw [← String.toList_append, String.ofList_toList] at hitems
  exact hitems

/-- **A list with an operator and an operand behind it is read as that operation.** -/
theorem readPattern_operator (hleft : readPattern text = .ok [left]) (hlist : left.isList = true) (op : ListOperator)
    (hright : Grammar.operand Grammar.item other.toList = some (right, [])) :
    readPattern (text ++ (op.symbol ++ other)) =
      .ok [.operations (text ++ (op.symbol ++ other)) left [.binary op (some right)]] := by
  have htail := Grammar.listTail_of_operator op hright
  rw [← String.toList_append] at htail
  exact readPattern_operations hleft hlist htail (List.cons_ne_nil _ _)

/-- Two lists with the sign of interleaving between them are read as that operation. -/
theorem readPattern_zip (hleft : readPattern text = .ok [left]) (hright : readPattern other = .ok [right])
    (hlist : left.isList = true) (hlist' : right.isList = true) :
    readPattern (text ++ ("<>" ++ other)) =
      .ok [.operations (text ++ ("<>" ++ other)) left [.binary .zip (some right)]] := by
  rw [readPattern_eq_ok] at hright
  obtain ⟨hnone, hother⟩ := Grammar.list_of_item hlist' (Grammar.item_of_singleton hright)
  exact readPattern_operator hleft hlist .zip (Grammar.operand_of_list hnone hother)

/-- A list with a plus sign and an operand behind it is read as that sum. -/
theorem readPattern_sum (hleft : readPattern text = .ok [left]) (hlist : left.isList = true)
    (hright : Grammar.operand Grammar.item other.toList = some (right, [])) :
    readPattern (text ++ ("+" ++ other)) =
      .ok [.operations (text ++ ("+" ++ other)) left [.binary (.arithmetic .add) (some right)]] :=
  readPattern_operator hleft hlist (.arithmetic .add) hright

end NumberedMelody
