/-
  NumberedMelody/Proofs/Grammar/RightOperands.lean
  ================================================
  **What stands behind an operator.**  Operands have rules of their own, fewer than
  items have.  An ordered choice that ends with a subdivision, a pitch or a chord
  has passed over everything in front, so what is one of these as an item is the
  same as an operand (`operand_of_readPattern`).  There is no rule for a variable
  among the operands, so a list, an operator and a variable are not read as an
  operation (`readPattern_operator_iff`).
-/
import NumberedMelody.Proofs.Evaluation.Invariant
import NumberedMelody.Proofs.Grammar.ListOperations

namespace NumberedMelody

open Reader

namespace Node

def isSubdivision : Node → Bool
  | .subdivision _ _ _ => true
  | _ => false

/-- A pitch or a chord. -/
def isPitched : Node → Bool
  | .event e => e.isPitched
  | _ => false

def isVariable : Node → Bool
  | .variable _ _ => true
  | _ => false

/-- What the grammar names as right operands: a list, a subdivision, a pitch or a
    chord whose text does not start with an angle bracket, or a variable. -/
def IsRightOperand (text : String) (node : Node) : Prop :=
  node.isList = true ∨ node.isSubdivision = true ∨ (node.isPitched = true ∧ text.toList.head? ≠ some '<') ∨
    node.isVariable = true

end Node

namespace Grammar

/-! ### What comes in front of an operand among the items -/

/-- The rules that are tried before subdivisions. -/
def beforeSubdivisions : List (Reader Node) :=
  [blank, bar, assignment item, together, variableUse, repetition item '[' ']' true, repetition item '(' ')' false,
    randomInteger, listLike item]

/-- The rules that are tried between subdivisions and chords. -/
def beforeChords : List (Reader Node) :=
  [subdivision item, control, block, range, numeral, Grammar.rest, randomPitch]

theorem item_eq_firstOf : item = firstOf (beforeSubdivisions ++ (beforeChords ++ [chord, pitch, cycle item])) := item_eq

theorem listLike_yields {P : Node → Prop}
    (hsequence : ∀ text overrides values, P (.sequence text overrides true values))
    (heuclid : ∀ text pulses length rotate onset offset, P (.euclid text pulses length rotate onset offset))
    (hoperations : ∀ text left steps, P (.operations text left steps)) : Yields P (listLike item) := by
  have hlist : Yields P (list item) := .after fun _ => .pure (hsequence ..)
  intro text node rest h
  obtain ⟨taken, left, mid, tail, hleft, -, rfl⟩ := listLike_eq_some h
  cases tail with
  | rhythm pulses length rotate offset => exact heuclid ..
  | steps operations =>
    cases operations with
    | nil => exact hlist text left mid hleft
    | cons step more => exact hoperations ..

/-- What is tried before subdivisions is neither a subdivision nor an event. -/
theorem beforeSubdivisions_yields :
    ∀ p ∈ beforeSubdivisions, Yields (fun node => node.isSubdivision = false ∧ node.isPitched = false) p := by
  simp only [beforeSubdivisions, List.forall_mem_cons]
  exact ⟨.map_any fun _ => ⟨rfl, rfl⟩, .map_any fun _ => ⟨rfl, rfl⟩, .after fun _ => .pure ⟨rfl, rfl⟩,
    .after fun _ => .pure ⟨rfl, rfl⟩, .map_any fun _ => ⟨rfl, rfl⟩, .after fun _ => .pure ⟨rfl, rfl⟩,
    .after fun _ => .pure ⟨rfl, rfl⟩, .after fun _ => .pure ⟨rfl, rfl⟩,
    listLike_yields (fun _ _ _ => ⟨rfl, rfl⟩) (fun _ _ _ _ _ _ => ⟨rfl, rfl⟩) fun _ _ _ => ⟨rfl, rfl⟩,
    List.forall_mem_nil _⟩

theorem beforeChords_yields : ∀ p ∈ beforeChords, Yields (fun node => node.isPitched = false) p := by
  simp only [beforeChords, List.forall_mem_cons]
  exact ⟨.after fun _ => .pure rfl, .after fun _ => .pure rfl, .after fun _ => .pure rfl, .after fun _ => .pure rfl,
    .after fun _ => .pure rfl, .after fun _ => .pure rfl, .after fun _ => .pure rfl, List.forall_mem_nil _⟩

/-! ### The same among the operands -/

variable {text rest : List Char} {node : Node}

/-- Behind a list there may always be nothing. -/
theorem listTail_total (text : List Char) : ∃ tail rest, listTail item text = some (tail, rest) := by
  obtain ⟨steps, rest, hsteps⟩ := many_total (operation item) text
  cases htail : listTail item text with
  | some pair => exact ⟨pair.1, pair.2, rfl⟩
  | none =>
    obtain ⟨-, hlast⟩ := firstOf_cons_eq_none.mp htail
    rw [firstOf_singleton, map_apply, hsteps] at hlast
    cases hlast

theorem list_of_listLike_none (h : listLike item text = none) : list item text = none := by
  cases hlist : list item text with
  | none => rfl
  | some pair =>
    obtain ⟨tail, rest, htail⟩ := listTail_total pair.2
    obtain ⟨taken, -, hread⟩ := listLike_of_tail hlist htail
    rw [h] at hread
    cases hread

theorem cycle_of_head (h : text.head? ≠ some '<') : cycle item text = none := by
  cases text with
  | nil => rfl
  | cons c text =>
    have hangle : c ≠ '<' := fun heq => h (congrArg some heq)
    simp [cycle, consumed, between, bind, Reader.bind, char, satisfy, hangle]

/-- Subdivisions, pitches and chords are tried for after lists. -/
theorem none_of_beforeSubdivisions (h : ∀ p ∈ beforeSubdivisions, p text = none) :
    randomInteger text = none ∧ list item text = none := by
  refine ⟨h _ ?_, list_of_listLike_none (h _ ?_)⟩
  · simp [beforeSubdivisions]
  · simp [beforeSubdivisions]

theorem operand_of_subdivision (hnode : node.isSubdivision = true) (h : item text = some (node, rest)) :
    operand item text = some (node, rest) := by
  have hbefore : ∀ p ∈ beforeSubdivisions, Yields (fun node => node.isSubdivision = false) p :=
    fun p hp => (beforeSubdivisions_yields p hp).imp fun _ h => h.1
  have hafter : ∀ p ∈ [control, block, range, numeral, Grammar.rest, randomPitch, chord, pitch, cycle item],
      Yields (fun node => node.isSubdivision = false) p := by
    simp only [List.forall_mem_cons]
    exact ⟨.after fun _ => .pure rfl, .after fun _ => .pure rfl, .after fun _ => .pure rfl,
      .after fun _ => .pure rfl, .after fun _ => .pure rfl, .after fun _ => .pure rfl, .after fun _ => .pure rfl,
      .after fun _ => .pure rfl, .after fun _ => .pure rfl, List.forall_mem_nil _⟩
  rw [item_eq_firstOf] at h
  obtain ⟨hnone, hsubdivision⟩ := firstOf_append_cons_eq_some hbefore hafter (by simp [hnode]) h
  obtain ⟨hbounds, hlist⟩ := none_of_beforeSubdivisions hnone
  simp only [operand, firstOf, hbounds, hlist, hsubdivision]

theorem operand_of_pitched (hnode : node.isPitched = true) (hhead : text.head? ≠ some '<')
    (h : item text = some (node, rest)) : operand item text = some (node, rest) := by
  rw [item_eq_firstOf] at h
  obtain ⟨hbefore, h⟩ := firstOf_append_eq_some beforeSubdivisions_yields (by simp [hnode]) h
  obtain ⟨hbetween, h⟩ := firstOf_append_eq_some beforeChords_yields (by simp [hnode]) h
  obtain ⟨hbounds, hlist⟩ := none_of_beforeSubdivisions hbefore
  have hoperands : ∀ p ∈ [randomInteger, list item, subdivision item, cycle item, range, randomPitch],
      p text = none := by
    simp only [List.forall_mem_cons]
    refine ⟨hbounds, hlist, hbetween _ ?_, cycle_of_head hhead, hbetween _ ?_, hbetween _ ?_, List.forall_mem_nil _⟩
    · simp [beforeChords]
    · simp [beforeChords]
    · simp [beforeChords]
  have hcycle : cycle item text = none := cycle_of_head hhead
  have hread : firstOf [chord, pitch] text = some (node, rest) := by
    simp only [firstOf, hcycle] at h ⊢
    exact h
  rw [← hread]
  exact firstOf_append_of_none hoperands

/-! ### Variables -/

/-- What is read as a variable starts with its name. -/
theorem variableName_of_item (hnode : node.isVariable = true) (h : item text = some (node, rest)) :
    ∃ c, variableName text = some (c, rest) := by
  have hbefore : ∀ p ∈ [blank, bar, assignment item, together], Yields (fun node => node.isVariable = false) p := by
    simp only [List.forall_mem_cons]
    exact ⟨.map_any fun _ => rfl, .map_any fun _ => rfl, .after fun _ => .pure rfl, .after fun _ => .pure rfl,
      List.forall_mem_nil _⟩
  have hafter : ∀ p ∈ [repetition item '[' ']' true, repetition item '(' ')' false, randomInteger, listLike item,
      subdivision item, control, block, range, numeral, Grammar.rest, randomPitch, chord, pitch, cycle item],
      Yields (fun node => node.isVariable = false) p := by
    simp only [List.forall_mem_cons]
    exact ⟨.after fun _ => .pure rfl, .after fun _ => .pure rfl, .after fun _ => .pure rfl,
      listLike_yields (fun _ _ _ => rfl) (fun _ _ _ _ _ _ => rfl) (fun _ _ _ => rfl), .after fun _ => .pure rfl,
      .after fun _ => .pure rfl, .after fun _ => .pure rfl, .after fun _ => .pure rfl, .after fun _ => .pure rfl,
      .after fun _ => .pure rfl, .after fun _ => .pure rfl, .after fun _ => .pure rfl, .after fun _ => .pure rfl,
      .after fun _ => .pure rfl, List.forall_mem_nil _⟩
  rw [item_eq] at h
  obtain ⟨-, hread⟩ := firstOf_append_cons_eq_some hbefore hafter (by simp [hnode]) h
  obtain ⟨c, hname, -⟩ := map_eq_some.mp hread
  exact ⟨c, hname⟩

/-- There is no operand that starts with the name of a variable. -/
theorem operand_of_variableName {c : Char} (h : variableName text = some (c, [])) : operand item text = none := by
  obtain ⟨rfl, htest⟩ := satisfy_eq_some.mp h
  rw [Bool.and_eq_true, Bool.and_eq_true] at htest
  obtain ⟨hlow, hhigh⟩ : 'A'.val ≤ c.val ∧ c.val ≤ 'Z'.val := of_decide_eq_true htest.1.1
  have hlow' : 65 ≤ c.toNat := UInt32.le_iff_toNat_le.mp hlow
  have hhigh' : c.toNat ≤ 90 := UInt32.le_iff_toNat_le.mp hhigh
  have hcapitals : ∀ i < 26, (variableName [Char.ofNat (65 + i)]).isSome = true →
      (operand item [Char.ofNat (65 + i)]).isNone = true := by
    decide +kernel
  have hletter : Char.ofNat (65 + (c.toNat - 65)) = c := by rw [Nat.add_sub_cancel' hlow', Char.ofNat_toNat]
  have hnone := hcapitals (c.toNat - 65) (by omega)
  rw [hletter, h] at hnone
  exact Option.isNone_iff_eq_none.mp (hnone rfl)

/-- Without a rhythm or an operation behind it, a list is read alone. -/
theorem item_of_list_alone {left : Node} {more : List Char} (hlist : left.isList = true)
    (hread : items text = some ([left], [])) (hrhythm : rhythm more = none) (hoperation : operation item more = none) :
    item (text ++ more) = some (left, more) := by
  obtain ⟨hnone, hleft⟩ := list_of_item hlist (item_of_singleton hread)
  obtain ⟨taken, overrides, values, rfl⟩ := Node.eq_sequence_of_isList hlist
  obtain ⟨htext, rfl⟩ := listText_of_list hleft
  have htail := listTail_of_steps hrhythm (many_of_none hoperation)
  obtain ⟨taken, -, hlistLike⟩ := listLike_of_tail (htext.list_append more) htail
  exact item_eq_listLike (hnone.append htext more) hlistLike

end Grammar

variable {text other : String} {left right : Node}

theorem operand_of_readPattern (hright : readPattern other = .ok [right]) (hoperand : right.IsRightOperand other)
    (hvariable : right.isVariable = false) : Grammar.operand Grammar.item other.toList = some (right, []) := by
  have hitem := Grammar.item_of_singleton (readPattern_eq_ok.mp hright)
  rcases hoperand with hlist | hsubdivision | ⟨hpitched, hhead⟩ | hname
  · obtain ⟨hnone, hread⟩ := Grammar.list_of_item hlist hitem
    exact Grammar.operand_of_list hnone hread
  · exact Grammar.operand_of_subdivision hsubdivision hitem
  · exact Grammar.operand_of_pitched hpitched hhead hitem
  · rw [hvariable] at hname
    cases hname

/-- In front of an operator and a variable, a list is read alone. -/
theorem readPattern_before_variable (hleft : readPattern text = .ok [left]) (hlist : left.isList = true)
    (op : ListOperator) (hright : readPattern other = .ok [right]) (hvariable : right.isVariable = true)
    {nodes : List Node} (h : readPattern (text ++ (op.symbol ++ other)) = .ok nodes) : nodes.head? = some left := by
  rw [readPattern_eq_ok] at hleft hright h
  obtain ⟨c, hname⟩ := Grammar.variableName_of_item hvariable (Grammar.item_of_singleton hright)
  have hoperation : Grammar.operation Grammar.item (op.symbol.toList ++ other.toList) = none := by
    rw [Grammar.operation_of_operator, map_apply, Grammar.operand_of_variableName hname]
    rfl
  have hitem := Grammar.item_of_list_alone hlist hleft (Grammar.rhythm_of_operator op other.toList) hoperation
  rw [String.toList_append, String.toList_append, Grammar.items_cons hitem] at h
  obtain ⟨⟨later, unread⟩, -, heq⟩ := Option.map_eq_some_iff.mp h
  obtain ⟨rfl, -⟩ := Prod.mk.inj heq
  rfl

/-- **All right operands but variables are accepted**, behind all operators: a list,
    an operator and an operand are read as one operation, exactly if the operand is
    no variable.  In front of a variable the list is read alone. -/
theorem readPattern_operator_iff (hleft : readPattern text = .ok [left]) (hlist : left.isList = true)
    (op : ListOperator) (hright : readPattern other = .ok [right]) (hoperand : right.IsRightOperand other) :
    (readPattern (text ++ (op.symbol ++ other)) =
        .ok [.operations (text ++ (op.symbol ++ other)) left [.binary op (some right)]] ↔ right.isVariable = false) ∧
      (right.isVariable = true → ∀ nodes, readPattern (text ++ (op.symbol ++ other)) = .ok nodes →
        nodes.head? = some left) := by
  refine ⟨⟨?_, ?_⟩, ?_⟩
  · intro h
    by_contra hvariable
    rw [Bool.not_eq_false] at hvariable
    have hhead := readPattern_before_variable hleft hlist op hright hvariable h
    rw [← Option.some.inj hhead] at hlist
    cases hlist
  · intro hvariable
    exact readPattern_operator hleft hlist op (operand_of_readPattern hright hoperand hvariable)
  · intro hvariable nodes h
    exact readPattern_before_variable hleft hlist op hright hvariable h

theorem exists_of_isOne {test : Node → Bool}
    (h : (readPattern text).toOption.any (fun nodes => nodes.length = 1 && nodes.all test) = true) :
    ∃ node, readPattern text = .ok [node] ∧ test node = true := by
  obtain ⟨nodes, hread, hone⟩ := eq_ok_of_any h
  obtain ⟨hlength, htest⟩ := Bool.and_eq_true_iff.mp hone
  obtain ⟨node, rfl⟩ := List.length_eq_one_iff.mp (of_decide_eq_true hlength)
  exact ⟨node, hread, List.all_eq_true.mp htest node (List.mem_singleton.mpr rfl)⟩

/-- The sign of remainders in front of a chord with an inversion, which has the same sign. -/
theorem inverted_chord_behind_remainder :
    ∃ left right, readPattern "(0 1)" = .ok [left] ∧ left.isList = true ∧ readPattern "_0^24%1" = .ok [right] ∧
      right.IsRightOperand "_0^24%1" ∧
      readPattern ("(0 1)" ++ ("%" ++ "_0^24%1")) =
        .ok [.operations ("(0 1)" ++ ("%" ++ "_0^24%1")) left [.binary (.arithmetic .modulo) (some right)]] := by
  have hlist : (readPattern "(0 1)").toOption.any (fun nodes => nodes.length = 1 && nodes.all Node.isList) = true := by
    decide +kernel
  have hchord : (readPattern "_0^24%1").toOption.any (fun nodes => nodes.length = 1 && nodes.all fun node =>
      node.isPitched && !node.isVariable) = true := by
    decide +kernel
  obtain ⟨left, hleft, hlist⟩ := exists_of_isOne hlist
  obtain ⟨right, hright, htest⟩ := exists_of_isOne hchord
  obtain ⟨hpitched, hvariable⟩ := Bool.and_eq_true_iff.mp htest
  have hoperand : right.IsRightOperand "_0^24%1" := .inr (.inr (.inl ⟨hpitched, by decide⟩))
  exact ⟨left, right, hleft, hlist, hright, hoperand,
    (readPattern_operator_iff hleft hlist (.arithmetic .modulo) hright hoperand).1.mpr (by simpa using hvariable)⟩

/-- A list and a variable are patterns, but their sum is none. -/
theorem variable_not_added :
    ∃ left right failure, readPattern "(0 1)" = .ok [left] ∧ left.isList = true ∧ readPattern "A" = .ok [right] ∧
      right.IsRightOperand "A" ∧ readPattern ("(0 1)" ++ ("+" ++ "A")) = .error failure := by
  have hlist : (readPattern "(0 1)").toOption.any (fun nodes => nodes.length = 1 && nodes.all Node.isList) = true := by
    decide +kernel
  have hname : (readPattern "A").toOption.any (fun nodes => nodes.length = 1 && nodes.all Node.isVariable) = true := by
    decide +kernel
  have hunread : (readPattern ("(0 1)" ++ ("+" ++ "A"))).toOption.isNone = true := by decide +kernel
  obtain ⟨left, hleft, hlist⟩ := exists_of_isOne hlist
  obtain ⟨right, hright, hvariable⟩ := exists_of_isOne hname
  cases hread : readPattern ("(0 1)" ++ ("+" ++ "A")) with
  | error failure => exact ⟨left, right, failure, hleft, hlist, hright, .inr (.inr (.inr hvariable)), rfl⟩
  | ok nodes =>
    rw [hread] at hunread
    cases hunread

end NumberedMelody
