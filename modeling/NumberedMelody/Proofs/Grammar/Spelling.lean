/-
  NumberedMelody/Proofs/Grammar/Spelling.lean
  ===========================================
  **Reading loses nothing.**  Every node keeps the text that it was read from,
  at every depth: the text of a group is made of the texts of its values and of
  the signs around them (`Spelled`).  A reader of nodes is *faithful* if the
  text of a node is exactly what was taken for it and the node is spelled by
  what is inside it; the grammar is faithful because each of its rules is.

  The items at the start of a text can always be read: they end where no item
  can be read, and their texts join to what was taken
  (`items_spell_pattern`).
-/
import NumberedMelody.Grammar.Item
import NumberedMelody.Proofs.Grammar.Lexemes
import NumberedMelody.Proofs.Tree.Shape

namespace NumberedMelody

open Reader

/-! ### How a node is spelled -/

namespace Node

/-- The texts of nodes, joined. -/
def textsOf (nodes : List Node) : List Char := nodes.flatMap fun node => node.text.toList

@[simp] theorem textsOf_cons (node : Node) (nodes : List Node) :
    textsOf (node :: nodes) = node.text.toList ++ textsOf nodes := rfl

/-- The text of a node is made of the texts of the nodes inside it and of the
    signs of its rule. -/
def Spelled : Node → Prop
  | .sequence text overrides true values =>
    ∃ front, Grammar.marks front = some (overrides, []) ∧
      text.toList = front ++ '(' :: textsOf values ++ [')']
  | .sequence text _ false values => text.toList = '\x7b' :: textsOf values ++ ['\x7d']
  | .subdivision text overrides values =>
    ∃ front, Grammar.marks front = some (overrides, []) ∧
      text.toList = front ++ '[' :: textsOf values ++ [']']
  | .repetition text true values count =>
    text.toList = ['[', ':'] ++ textsOf values ++ ':' :: count.text.toList ++ [']']
  | .repetition text false values count =>
    text.toList = ['(', ':'] ++ textsOf values ++ ':' :: count.text.toList ++ [')']
  | .operations text left _ => left.text.toList <+: text.toList
  | .euclid text _ _ _ onset _ => onset.text.toList <+: text.toList
  | .assignment text name eager value =>
    text.toList = name.toList ++ (if eager then '~' else '=') :: value.text.toList
  | _ => True

/-- A node with nothing inside. -/
theorem Everywhere.leaf {P : Node → Prop} {node : Node} (here : P node) (hchildren : node.children = []) :
    node.Everywhere P :=
  .intro here fun child hchild => by simp [hchildren] at hchild

end Node

open Node (textsOf Spelled)

/-! ### Faithful readers -/

/-- The text of a node is what the reader takes for it, and the node is spelled
    by what is inside it. -/
class Faithful (p : Reader Node) : Prop extends Productive p where
  spells : ∀ {text node rest}, p text = some (node, rest) → text = node.text.toList ++ rest
  spelled : ∀ {text node rest}, p text = some (node, rest) → node.Everywhere Spelled

namespace Faithful

variable {α : Type}

/-- A reader that makes a node of the text that it takes. -/
theorem of_consumed {q : Reader α} [Productive q] {next : String × α → Reader Node}
    (h : ∀ (taken : String) (a : α) (rest : List Char), q (taken.toList ++ rest) = some (a, rest) →
      ∃ node, next (taken, a) rest = some (node, rest) ∧ node.text = taken ∧ node.Everywhere Spelled) :
    Faithful (consumed q >>= next) := by
  have hread : ∀ {text node rest}, (consumed q >>= next) text = some (node, rest) →
      rest.length < text.length ∧ text = node.text.toList ++ rest ∧ node.Everywhere Spelled := by
    intro text node rest hnode
    obtain ⟨⟨taken, a⟩, mid, hconsumed, hnext⟩ := bind_eq_some.mp hnode
    obtain ⟨rfl, hq⟩ := consumed_eq_some.mp hconsumed
    obtain ⟨node', hnext', rfl, hspelled⟩ := h taken a mid hq
    rw [hnext', Option.some.injEq, Prod.mk.injEq] at hnext
    obtain ⟨rfl, rfl⟩ := hnext
    exact ⟨Productive.shorter hq, rfl, hspelled⟩
  exact
    { suffix := fun hnode => ⟨_, (hread hnode).2.1.symm⟩
      shorter := fun hnode => (hread hnode).1
      spells := fun hnode => (hread hnode).2.1
      spelled := fun hnode => (hread hnode).2.2 }

theorem of_consumed_map {q : Reader α} [Productive q] {make : String × α → Node}
    (h : ∀ (taken : String) (a : α), (make (taken, a)).text = taken ∧ (make (taken, a)).Everywhere Spelled) :
    Faithful (make <$> consumed q) :=
  of_consumed fun taken a _ _ => ⟨make (taken, a), rfl, (h taken a).1, (h taken a).2⟩

instance : Faithful (firstOf []) where
  spells h := by cases h
  spelled h := by cases h

instance {p : Reader Node} {alternatives : List (Reader Node)} [Faithful p] [Faithful (firstOf alternatives)] :
    Faithful (firstOf (p :: alternatives)) where
  spells h := by
    rcases firstOf_cons_eq_some.mp h with hp | ⟨-, hmore⟩
    · exact Faithful.spells hp
    · exact Faithful.spells hmore
  spelled h := by
    rcases firstOf_cons_eq_some.mp h with hp | ⟨-, hmore⟩
    · exact Faithful.spelled hp
    · exact Faithful.spelled hmore

/-- **The texts of nodes in a row join to what is taken for all of them.** -/
theorem many {p : Reader Node} [Faithful p] {text rest : List Char} {nodes : List Node}
    (h : many p text = some (nodes, rest)) :
    text = textsOf nodes ++ rest ∧ ∀ node ∈ nodes, node.Everywhere Spelled := by
  refine many_induction
    (motive := fun text nodes rest => text = textsOf nodes ++ rest ∧ ∀ node ∈ nodes, node.Everywhere Spelled)
    ?_ ?_ h
  · intro text _
    exact ⟨rfl, by simp⟩
  · intro text node mid more rest hnode _ ih
    refine ⟨?_, ?_⟩
    · rw [Faithful.spells hnode, ih.1, Node.textsOf_cons, List.append_assoc]
    · intro other hother
      rcases List.mem_cons.mp hother with rfl | hmore
      · exact Faithful.spelled hnode
      · exact ih.2 other hmore

end Faithful

namespace Grammar

/-! ### Items without items inside -/

instance : Faithful blank := .of_consumed_map fun _ _ => ⟨rfl, .leaf trivial rfl⟩

instance : Faithful bar := .of_consumed_map fun _ _ => ⟨rfl, .leaf trivial rfl⟩

instance : Faithful control := .of_consumed fun _ _ _ _ => ⟨_, rfl, rfl, .leaf trivial rfl⟩

instance : Faithful chord := .of_consumed fun _ _ _ _ => ⟨_, rfl, rfl, .leaf trivial rfl⟩

instance : Faithful pitch := .of_consumed fun _ _ _ _ => ⟨_, rfl, rfl, .leaf trivial rfl⟩

instance : Faithful rest := .of_consumed fun _ _ _ _ => ⟨_, rfl, rfl, .leaf trivial rfl⟩

instance : Faithful randomPitch := .of_consumed fun _ _ _ _ => ⟨_, rfl, rfl, .leaf trivial rfl⟩

instance : Faithful randomInteger := .of_consumed fun _ _ _ _ => ⟨_, rfl, rfl, .leaf trivial rfl⟩

instance : Faithful range := .of_consumed fun _ _ _ _ => ⟨_, rfl, rfl, .leaf trivial rfl⟩

instance : Faithful numeral := .of_consumed fun _ _ _ _ => ⟨_, rfl, rfl, .leaf trivial rfl⟩

instance : Faithful expressionItem := .of_consumed fun _ _ _ _ => ⟨_, rfl, rfl, .leaf trivial rfl⟩

instance : Faithful together := .of_consumed fun _ _ _ _ => ⟨_, rfl, rfl, .leaf trivial rfl⟩

instance : Productive variableUse := by
  unfold variableUse
  infer_instance

instance : Faithful variableUse where
  spells h := by
    obtain ⟨name, hname, rfl⟩ := map_eq_some.mp h
    obtain ⟨rfl, -⟩ := satisfy_eq_some.mp hname
    simp [Node.text]
  spelled h := by
    obtain ⟨name, -, rfl⟩ := map_eq_some.mp h
    exact .leaf trivial rfl

instance : Faithful block := by
  refine .of_consumed ?_
  intro taken values mid h
  obtain ⟨inside, htext, hvalues⟩ := between_eq_some.mp h
  obtain ⟨rfl, hinside⟩ := Faithful.many hvalues
  refine ⟨_, rfl, rfl, .intro ?_ hinside⟩
  have hsplit : taken.toList ++ mid = ('\x7b' :: textsOf values ++ ['\x7d']) ++ mid := by
    rw [htext]
    simp
  exact List.append_cancel_right hsplit

/-! ### Items with items inside -/

variable {item : Reader Node} [Faithful item]

/-- A group: marks, and items between the signs that open and close it. -/
theorem group_eq_some {opening closing : Char} (hopening : opening = '(' ∨ opening = '[') {taken rest : List Char}
    {overrides : Overrides} {values : List Node}
    (h : (do
      let overrides ← marks
      let values ← between opening closing (many item)
      return (overrides, values) : Reader (Overrides × List Node)) (taken ++ rest) =
        some ((overrides, values), rest)) :
    (∃ front, marks front = some (overrides, []) ∧ taken = front ++ opening :: textsOf values ++ [closing]) ∧
      ∀ value ∈ values, value.Everywhere Spelled := by
  obtain ⟨overrides', mid, hmarks, hbetween⟩ := bind_eq_some.mp h
  obtain ⟨values', mid', hvalues, hpure⟩ := bind_eq_some.mp hbetween
  obtain ⟨hpair, rfl⟩ := pure_eq_some.mp hpure
  obtain ⟨rfl, rfl⟩ := Prod.mk.inj hpair
  obtain ⟨inside, rfl, hmany⟩ := between_eq_some.mp hvalues
  obtain ⟨rfl, hinside⟩ := Faithful.many hmany
  obtain ⟨front, htext, hfront⟩ := marks_of_opening hopening hmarks
  refine ⟨⟨front, hfront, ?_⟩, hinside⟩
  have hsplit : taken ++ mid' = (front ++ opening :: textsOf values' ++ [closing]) ++ mid' := by
    rw [htext]
    simp
  exact List.append_cancel_right hsplit

instance : Faithful (list item) := by
  refine .of_consumed ?_
  rintro taken ⟨overrides, values⟩ rest h
  obtain ⟨hspelled, hinside⟩ := group_eq_some (.inl rfl) h
  exact ⟨_, rfl, rfl, .intro hspelled hinside⟩

instance : Faithful (subdivision item) := by
  refine .of_consumed ?_
  rintro taken ⟨overrides, values⟩ rest h
  obtain ⟨hspelled, hinside⟩ := group_eq_some (.inr rfl) h
  exact ⟨_, rfl, rfl, .intro hspelled hinside⟩

instance : Faithful (cycle item) := by
  refine .of_consumed ?_
  intro taken values rest h
  obtain ⟨inside, -, hvalues⟩ := between_eq_some.mp h
  obtain ⟨-, hinside⟩ := Faithful.many hvalues
  refine ⟨_, rfl, rfl, .intro trivial ?_⟩
  intro value hvalue
  exact hinside value (List.mem_filter.mp hvalue).1

instance : Faithful (operand item) := by
  unfold operand
  infer_instance

instance : Productive (operation item) := by
  unfold operation
  infer_instance

theorem spelled_of_operation {text rest : List Char} {step : Operation Node}
    (h : operation item text = some (step, rest)) : ∀ right ∈ step.right?, right.Everywhere Spelled := by
  intro right hright
  unfold operation at h
  simp only [firstOf_cons_eq_some, firstOf_nil, bind_eq_some, pure_eq_some, map_eq_some] at h
  rcases h with ⟨_, _, -, _, _, hoperand, rfl, -⟩ | ⟨-, h⟩
  · obtain rfl := Option.some.inj hright
    exact Faithful.spelled hoperand
  · rcases h with ⟨_, -, rfl⟩ | ⟨-, h⟩
    · cases hright
    · rcases h with ⟨_, _, -, _, _, hoperand, rfl, -⟩ | ⟨-, h⟩
      · obtain rfl := Option.some.inj hright
        exact Faithful.spelled hoperand
      · cases h

theorem spelled_of_operations {text rest : List Char} {steps : List (Operation Node)}
    (h : many (operation item) text = some (steps, rest)) :
    ∀ step ∈ steps, ∀ right ∈ step.right?, right.Everywhere Spelled := by
  refine many_induction
    (motive := fun _ steps _ => ∀ step ∈ steps, ∀ right ∈ step.right?, right.Everywhere Spelled) ?_ ?_ h
  · intro _ _ step hstep
    cases hstep
  · intro text step mid more rest hstep _ ih other hother
    rcases List.mem_cons.mp hother with rfl | hmore
    · exact spelled_of_operation hstep
    · exact ih other hmore

instance : Productive rhythm := by
  unfold rhythm
  infer_instance

instance : Lossless (listTail item) := by
  unfold listTail
  infer_instance

/-- What follows a list says nothing, or is spelled inside. -/
theorem spelled_of_listTail {text rest : List Char} {tail : ListTail}
    (h : listTail item text = some (tail, rest)) :
    (∃ pulses length rotate offset, tail = .rhythm pulses length rotate offset ∧
        ∀ node ∈ offset, node.Everywhere Spelled) ∨
      (tail = .steps [] ∧ text = rest) ∨
      ∃ step steps, tail = .steps (step :: steps) ∧
        ∀ other ∈ step :: steps, ∀ right ∈ other.right?, right.Everywhere Spelled := by
  unfold listTail at h
  simp only [firstOf_cons_eq_some, firstOf_nil, bind_eq_some, map_eq_some] at h
  rcases h with ⟨⟨pulses, length, rotate⟩, _, -, offset, mid, hoffset, hpure⟩ | ⟨-, ⟨steps, hsteps, rfl⟩ | ⟨-, h⟩⟩
  · obtain ⟨rfl, -⟩ := pure_eq_some.mp hpure
    refine .inl ⟨pulses, length, rotate, offset, rfl, ?_⟩
    intro node hnode
    rcases optional_eq_some.mp hoffset with ⟨other, hlist, rfl⟩ | ⟨-, rfl, -⟩
    · obtain rfl := Option.some.inj hnode
      exact Faithful.spelled hlist
    · cases hnode
  · cases steps with
    | nil =>
      refine .inr (.inl ⟨rfl, ?_⟩)
      rw [many_eq] at hsteps
      split at hsteps
      · simp only [Option.some.injEq, Prod.mk.injEq] at hsteps
        exact hsteps.2
      · split at hsteps
        · simp at hsteps
        · cases hsteps
    | cons step steps => exact .inr (.inr ⟨step, steps, rfl, spelled_of_operations hsteps⟩)
  · cases h

/-- A list is spelled alone, and its text is what the text of a rhythm or of
    operations on it starts with. -/
instance : Faithful (listLike item) := by
  refine .of_consumed ?_
  rintro taken ⟨left, tail⟩ rest h
  obtain ⟨left', mid, hlist, h⟩ := bind_eq_some.mp h
  obtain ⟨tail', mid', htail, hpure⟩ := bind_eq_some.mp h
  obtain ⟨hpair, rfl⟩ := pure_eq_some.mp hpure
  obtain ⟨rfl, rfl⟩ := Prod.mk.inj hpair
  have hleft := Faithful.spelled hlist
  have htext := Faithful.spells hlist
  obtain ⟨after, rfl⟩ := Lossless.suffix htail
  have htaken : taken.toList = left'.text.toList ++ after := by
    rw [← List.append_assoc] at htext
    exact List.append_cancel_right htext
  have hstarts : left'.text.toList <+: taken.toList := ⟨after, htaken.symm⟩
  rcases spelled_of_listTail htail with
    ⟨pulses, length, rotate, offset, rfl, hoffset⟩ | ⟨rfl, hnothing⟩ | ⟨step, steps, rfl, hsteps⟩
  · refine ⟨_, rfl, rfl, .intro hstarts ?_⟩
    intro node hnode
    rcases List.mem_cons.mp hnode with rfl | hnode
    · exact hleft
    · exact hoffset node (Option.mem_toList.mp hnode)
  · refine ⟨left', rfl, ?_, hleft⟩
    have hnil : after = [] := by
      have hlength := congrArg List.length hnothing
      rw [List.length_append] at hlength
      exact List.eq_nil_of_length_eq_zero (by omega)
    rw [hnil, List.append_nil] at htaken
    exact String.toList_inj.mp htaken.symm
  · refine ⟨_, rfl, rfl, .intro hstarts ?_⟩
    intro node hnode
    rcases List.mem_cons.mp hnode with rfl | hnode
    · exact hleft
    · obtain ⟨other, hother, hright⟩ := List.mem_filterMap.mp hnode
      exact hsteps other hother node hright

instance : Faithful ((fun (text, value) => Node.integer text value) <$> consumed integer) :=
  .of_consumed_map fun _ _ => ⟨rfl, .leaf trivial rfl⟩

instance : Faithful (count item) := by
  unfold count
  infer_instance

/-- The count of a repeat is spelled where it stands, or by nothing at all. -/
theorem optional_count_eq_some {text rest : List Char} {counted : Option Node}
    (h : optional (count item) text = some (counted, rest)) :
    text = (counted.getD twice).text.toList ++ rest ∧ (counted.getD twice).Everywhere Spelled := by
  rcases optional_eq_some.mp h with ⟨node, hnode, rfl⟩ | ⟨-, rfl, rfl⟩
  · exact ⟨Faithful.spells hnode, Faithful.spelled hnode⟩
  · exact ⟨rfl, .leaf trivial rfl⟩

theorem faithful_repetition {opening closing : Char} {replayed : Bool}
    (hspelled : ∀ (text : String) (values : List Node) (count : Node),
      text.toList = [opening, ':'] ++ textsOf values ++ ':' :: count.text.toList ++ [closing] →
        Spelled (.repetition text replayed values count)) :
    Faithful (repetition item opening closing replayed) := by
  refine .of_consumed ?_
  rintro taken ⟨values, counted⟩ rest h
  obtain ⟨⟨⟩, mid₁, hopening, h⟩ := bind_eq_some.mp h
  obtain ⟨values', mid₂, hvalues, h⟩ := bind_eq_some.mp h
  obtain ⟨_, mid₃, hcolon, h⟩ := bind_eq_some.mp h
  obtain ⟨counted', mid₄, hcounted, h⟩ := bind_eq_some.mp h
  obtain ⟨_, mid₅, hclosing, hpure⟩ := bind_eq_some.mp h
  obtain ⟨hpair, rfl⟩ := pure_eq_some.mp hpure
  obtain ⟨rfl, rfl⟩ := Prod.mk.inj hpair
  have htaken := exactly_eq_some.mp hopening
  obtain ⟨rfl, hinside⟩ := Faithful.many hvalues
  obtain ⟨rfl, -⟩ := char_eq_some.mp hcolon
  obtain ⟨rfl, hcount⟩ := optional_count_eq_some hcounted
  obtain ⟨rfl, -⟩ := char_eq_some.mp hclosing
  refine ⟨_, rfl, rfl, .intro (hspelled _ _ _ ?_) ?_⟩
  · have hsplit : taken.toList ++ mid₅ =
        ([opening, ':'] ++ textsOf values' ++ ':' :: (counted'.getD twice).text.toList ++ [closing]) ++ mid₅ := by
      rw [htaken]
      simp
    exact List.append_cancel_right hsplit
  · intro node hnode
    rcases List.mem_cons.mp hnode with rfl | hvalue
    · exact hcount
    · exact hinside node hvalue

instance : Faithful (repetition item '[' ']' true) := faithful_repetition fun _ _ _ h => h

instance : Faithful (repetition item '(' ')' false) := faithful_repetition fun _ _ _ h => h

instance : Faithful (assignment item) := by
  refine .of_consumed ?_
  rintro taken ⟨name, sign, value⟩ rest h
  obtain ⟨name', mid₁, hname, h⟩ := bind_eq_some.mp h
  obtain ⟨sign', mid₂, hsign, h⟩ := bind_eq_some.mp h
  obtain ⟨value', mid₃, hverified, hpure⟩ := bind_eq_some.mp h
  obtain ⟨htriple, rfl⟩ := pure_eq_some.mp hpure
  simp only [Prod.mk.injEq] at htriple
  obtain ⟨rfl, rfl, rfl⟩ := htriple
  obtain ⟨htaken, -⟩ := satisfy_eq_some.mp hname
  obtain ⟨rfl, heither⟩ := satisfy_eq_some.mp hsign
  obtain ⟨hvalue, -⟩ := verify_eq_some.mp hverified
  have hspells := Faithful.spells hvalue
  subst hspells
  have hsign' : (if (sign' == '~') = true then '~' else '=') = sign' := by
    have hmem : sign' = '=' ∨ sign' = '~' := by simpa using heither
    rcases hmem with rfl | rfl <;> rfl
  refine ⟨_, rfl, rfl, .intro ?_ ?_⟩
  · have hsplit : taken.toList ++ mid₃ = (name' :: sign' :: value'.text.toList) ++ mid₃ := htaken
    have htext := List.append_cancel_right hsplit
    show taken.toList = name'.toString.toList ++ (if (sign' == '~') = true then '~' else '=') :: value'.text.toList
    rw [hsign', htext]
    simp
  · intro node hnode
    obtain rfl := List.mem_singleton.mp hnode
    exact Faithful.spelled hvalue

/-! ### All items -/

instance : Faithful (itemOver item) := by
  unfold itemOver
  infer_instance

theorem faithful_itemTo (depth : Nat) : Faithful (itemTo depth) := by
  induction depth with
  | zero => exact inferInstanceAs (Faithful (firstOf []))
  | succ depth ih =>
    rw [itemTo]
    infer_instance

instance : Faithful Grammar.item where
  suffix {text _ _} h := (faithful_itemTo (text.length + 1)).suffix h
  shorter {text _ _} h := (faithful_itemTo (text.length + 1)).shorter h
  spells {text _ _} h := (faithful_itemTo (text.length + 1)).spells h
  spelled {text _ _} h := (faithful_itemTo (text.length + 1)).spelled h

end Grammar

theorem readPattern_eq_ok {text : String} {nodes : List Node} :
    readPattern text = .ok nodes ↔ Grammar.items text.toList = some (nodes, []) := by
  unfold readPattern
  rcases Grammar.items text.toList with _ | ⟨read, _ | ⟨c, rest⟩⟩
  · simp
  · simp
  · simp

/-- **Reading loses nothing.**  Of every text, items can be read up to a rest at
    which no item can be read: their texts and the rest join to the text, and
    every node among them is spelled by what is inside it, at any depth.  A
    pattern is read if this rest is empty, and is then the texts of its nodes. -/
theorem items_spell_pattern (text : String) :
    ∃ nodes rest, Grammar.items text.toList = some (nodes, rest) ∧
      textsOf nodes ++ rest = text.toList ∧ Grammar.item rest = none ∧
      (∀ node ∈ nodes, node.Everywhere Spelled) ∧
      ∀ read, readPattern text = .ok read ↔ rest = [] ∧ read = nodes := by
  obtain ⟨nodes, rest, hitems⟩ := many_total Grammar.item text.toList
  obtain ⟨htext, hspelled⟩ := Faithful.many hitems
  refine ⟨nodes, rest, hitems, htext.symm, rest_of_many hitems, hspelled, ?_⟩
  intro read
  have hread : Grammar.items text.toList = some (nodes, rest) := hitems
  unfold readPattern
  rw [hread]
  cases rest with
  | nil =>
    simp only [Except.ok.injEq, true_and]
    exact eq_comm
  | cons c rest => simp

end NumberedMelody
