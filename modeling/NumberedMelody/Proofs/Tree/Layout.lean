/-
  NumberedMelody/Proofs/Tree/Layout.lean
  ======================================
  **Paths in a tree.**  The layout of a node says which node is on which of its
  branches, and a path goes from branch to branch.  Nodes of which evaluation
  takes copies are on no branch: the value of a lazy assignment, and what stands
  on either side where lists are interleaved.
-/
import NumberedMelody.Proofs.Tree.Shape

namespace NumberedMelody

/-- The part that a node plays in the node around it. -/
inductive Slot where
  | value
  | count
  | left
  | operand
  | onset
  | offset
  | stored
  deriving DecidableEq, Repr

/-- Where a node is in the node around it.  The lists of a rhythm are counted by
    their elements, without blanks. -/
structure Branch where
  slot : Slot
  index : Nat
  deriving DecidableEq, Repr

/-- Where a node is in a tree, from the root on. -/
abbrev Path := List Branch

/-- Which node is on which branch. -/
abbrev Layout := Branch → Option Node

namespace Layout

def empty : Layout := fun _ => none

/-- Nodes in order, counted from a number on. -/
def listed (slot : Slot) (first : Nat) (nodes : List Node) : Layout := fun branch =>
  if branch.slot = slot ∧ first ≤ branch.index then nodes[branch.index - first]? else none

/-- Two layouts side by side. -/
def or (l m : Layout) : Layout := fun branch => (l branch).or (m branch)

/-- No branch is taken twice. -/
def Apart (l m : Layout) : Prop := ∀ branch, l branch = none ∨ m branch = none

/-- The operand that an operation runs in its place. -/
def kept : Operation Node → List Node
  | .binary .zip _ => []
  | .binary _ right => right.toList
  | .map _ => []

/-- The operands of operations, counted from a number on. -/
def operands : Nat → List (Operation Node) → Layout
  | _, [] => empty
  | i, step :: more => (listed .operand i (kept step)).or (operands (i + 1) more)

@[simp] theorem listed_nil (slot : Slot) (first : Nat) : listed slot first [] = empty := by
  funext branch
  simp [listed, empty]

@[simp] theorem empty_or (l : Layout) : empty.or l = l := by
  funext branch
  exact Option.none_or

theorem listed_cons (slot : Slot) (first : Nat) (node : Node) (more : List Node) :
    listed slot first (node :: more) = (listed slot first [node]).or (listed slot (first + 1) more) := by
  funext branch
  unfold listed or
  by_cases hslot : branch.slot = slot
  · rcases Nat.lt_trichotomy branch.index first with hlt | heq | hgt
    · simp [hslot, Nat.not_le.mpr hlt, Nat.not_le.mpr (Nat.lt_succ_of_lt hlt)]
    · simp [hslot, heq]
    · obtain ⟨more', hmore⟩ := Nat.exists_eq_add_of_lt hgt
      have hindex : branch.index - first = more' + 1 := by omega
      have hindex' : branch.index - (first + 1) = more' := by omega
      simp [hslot, hindex, hindex', Nat.le_of_lt hgt, Nat.succ_le_of_lt hgt]
  · simp [hslot]

theorem listed_set_self {first place : Nat} {nodes : List Node} (slot : Slot) (hlt : place < nodes.length) (node : Node) :
    listed slot first (nodes.set place node) ⟨slot, first + place⟩ = some node := by
  simp [listed, hlt]

theorem listed_set_of_ne {slot : Slot} {first place : Nat} {branch : Branch} (h : branch ≠ ⟨slot, first + place⟩)
    (nodes : List Node) (node : Node) :
    listed slot first (nodes.set place node) branch = listed slot first nodes branch := by
  unfold listed
  by_cases hin : branch.slot = slot ∧ first ≤ branch.index
  · have hindex : place ≠ branch.index - first := by
      intro hsame
      refine h ?_
      obtain ⟨slot', index⟩ := branch
      obtain ⟨rfl, hle⟩ := hin
      simp only [Branch.mk.injEq, true_and]
      simp only at hsame hle
      omega
    rw [if_pos hin, if_pos hin, List.getElem?_set_ne hindex]
  · rw [if_neg hin, if_neg hin]

theorem mem_of_listed {slot : Slot} {first : Nat} {nodes : List Node} {branch : Branch} {node : Node}
    (h : listed slot first nodes branch = some node) : node ∈ nodes := by
  unfold listed at h
  split at h
  · exact List.mem_of_getElem? h
  · cases h

theorem right?_of_mem_kept {step : Operation Node} {node : Node} (h : node ∈ kept step) : step.right? = some node := by
  cases step with
  | map expr => cases h
  | binary op right =>
    cases op with
    | zip => cases h
    | _ => exact Option.mem_toList.mp h

theorem mem_of_operands {steps : List (Operation Node)} {branch : Branch} {node : Node} :
    ∀ {i : Nat}, operands i steps branch = some node → node ∈ steps.filterMap Operation.right? := by
  induction steps with
  | nil =>
    intro i h
    cases h
  | cons step more ih =>
    intro i h
    rcases Option.or_eq_some_iff.mp h with hstep | ⟨-, hmore⟩
    · exact List.mem_filterMap.mpr ⟨step, List.mem_cons_self .., right?_of_mem_kept (mem_of_listed hstep)⟩
    · obtain ⟨other, hother, hright⟩ := List.mem_filterMap.mp (ih hmore)
      exact List.mem_filterMap.mpr ⟨other, List.mem_cons_of_mem _ hother, hright⟩

theorem slot_of_listed {slot : Slot} {first : Nat} {nodes : List Node} {branch : Branch}
    (h : listed slot first nodes branch ≠ none) : branch.slot = slot ∧ first ≤ branch.index := by
  by_cases hbranch : branch.slot = slot ∧ first ≤ branch.index
  · exact hbranch
  · exact absurd (if_neg hbranch) h

theorem lt_of_listed {slot : Slot} {first : Nat} {nodes : List Node} {branch : Branch}
    (h : listed slot first nodes branch ≠ none) : branch.index < first + nodes.length := by
  by_cases hbranch : branch.slot = slot ∧ first ≤ branch.index
  · unfold listed at h
    rw [if_pos hbranch, ne_eq, List.getElem?_eq_none_iff] at h
    omega
  · exact absurd (if_neg hbranch) h

theorem slot_of_operands {steps : List (Operation Node)} {branch : Branch} :
    ∀ {i : Nat}, operands i steps branch ≠ none → branch.slot = .operand ∧ i ≤ branch.index := by
  induction steps with
  | nil =>
    intro i h
    exact absurd rfl h
  | cons step more ih =>
    intro i h
    cases hstep : listed .operand i (kept step) branch with
    | some node =>
      have hne : listed .operand i (kept step) branch ≠ none := by simp [hstep]
      exact slot_of_listed hne
    | none =>
      obtain ⟨hslot, hindex⟩ := ih (i := i + 1) (by simpa [operands, or, hstep] using h)
      exact ⟨hslot, by omega⟩

theorem apart_of_slots {l m : Layout} {P : Branch → Prop} (hl : ∀ branch, l branch ≠ none → P branch)
    (hm : ∀ branch, m branch ≠ none → ¬ P branch) : l.Apart m := by
  intro branch
  by_cases hleft : l branch = none
  · exact .inl hleft
  · by_cases hright : m branch = none
    · exact .inr hright
    · exact absurd (hl branch hleft) (hm branch hright)

theorem apart_listed {slot slot' : Slot} (hslots : slot ≠ slot') (first first' : Nat) (nodes nodes' : List Node) :
    (listed slot first nodes).Apart (listed slot' first' nodes') :=
  apart_of_slots (P := fun branch => branch.slot = slot) (fun _ h => (slot_of_listed h).1)
    fun _ h hslot => hslots (hslot.symm.trans (slot_of_listed h).1)

theorem apart_left_operands (left : List Node) (i : Nat) (steps : List (Operation Node)) :
    (listed .left 0 left).Apart (operands i steps) :=
  apart_of_slots (P := fun branch => branch.slot = .left) (fun _ h => (slot_of_listed h).1) fun _ h hslot => by
    simp [(slot_of_operands h).1] at hslot

/-- Some nodes, and others counted from a number beyond them. -/
theorem apart_beyond {slot : Slot} {first next : Nat} {nodes : List Node} {m : Layout}
    (hnext : first + nodes.length ≤ next) (hm : ∀ branch, m branch ≠ none → next ≤ branch.index) :
    (listed slot first nodes).Apart m := by
  refine apart_of_slots (P := fun branch => branch.index < next) ?_ ?_
  · intro branch hbranch
    exact Nat.lt_of_lt_of_le (lt_of_listed hbranch) hnext
  · intro branch hbranch
    exact Nat.not_lt.mpr (hm branch hbranch)

theorem length_kept_le (step : Operation Node) : (kept step).length ≤ 1 := by
  cases step with
  | map expr => exact Nat.zero_le 1
  | binary op right => cases op <;> cases right <;> simp [kept]

end Layout

namespace Node

open Layout

/-- The first of the operations interleaves two lists. -/
def zipsFirst : List (Operation Node) → Bool
  | .binary .zip _ :: _ => true
  | _ => false

/-- The nodes that are run inside a node, where they are. -/
def layout : Node → Layout
  | .sequence _ _ _ values => listed .value 0 values
  | .cycle _ values _ => listed .value 0 values
  | .subdivision _ _ values => listed .value 0 values
  | .repetition _ _ values count => (listed .count 0 [count]).or (listed .value 0 values)
  | .operations _ left steps => (listed .left 0 (if zipsFirst steps then [] else [left])).or (operands 0 steps)
  | .euclid _ _ _ _ onset offset =>
    (listed .onset 0 onset.elements).or (listed .offset 0 ((offset.map elements).getD []))
  | .assignment _ _ eager value => listed .stored 0 (if eager then [value] else [])
  | _ => empty

/-- The operands of interleaving are copied on both sides. -/
theorem layout_zipped (text : String) (left : Node) (right : Option Node) (more : List (Operation Node)) :
    (operations text left (.binary .zip right :: more)).layout = operands 1 more := by
  simp only [layout, zipsFirst, if_true, Layout.operands, kept, listed_nil, empty_or]

theorem layout_operations {steps : List (Operation Node)} (h : zipsFirst steps = false) (text : String) (left : Node) :
    (operations text left steps).layout = (listed .left 0 [left]).or (operands 0 steps) := by
  simp only [layout, h, Bool.false_eq_true, if_false]

theorem zipsFirst_unplayedSteps (steps : List (Operation Node)) : zipsFirst (unplayedSteps steps) = zipsFirst steps := by
  cases steps with
  | nil => rfl
  | cons step more =>
    cases step with
    | map expr => rfl
    | binary op right => cases op <;> rfl

theorem zipsFirst_eq_of_unplayedSteps_eq {steps others : List (Operation Node)}
    (h : unplayedSteps others = unplayedSteps steps) : zipsFirst others = zipsFirst steps := by
  rw [← zipsFirst_unplayedSteps others, h, zipsFirst_unplayedSteps]

/-- The node at a path. -/
def at? (node : Node) : Path → Option Node
  | [] => some node
  | branch :: path => (node.layout branch).bind (·.at? path)

theorem Everywhere.layout {P : Node → Prop} {node : Node} (h : node.Everywhere P) {branch : Branch} {child : Node}
    (hchild : node.layout branch = some child) : child.Everywhere P := by
  have hinside := h.inside
  cases node with
  | sequence text overrides isList values => exact hinside child (mem_of_listed hchild)
  | cycle text values visits => exact hinside child (mem_of_listed hchild)
  | subdivision text overrides values => exact hinside child (mem_of_listed hchild)
  | repetition text replayed values count =>
    rcases Option.or_eq_some_iff.mp hchild with hcount | ⟨-, hvalue⟩
    · exact hinside child (List.mem_cons.mpr (.inl (List.mem_singleton.mp (mem_of_listed hcount))))
    · exact hinside child (List.mem_cons_of_mem _ (mem_of_listed hvalue))
  | operations text left steps =>
    rcases Option.or_eq_some_iff.mp hchild with hleft | ⟨-, hoperand⟩
    · have hmem := mem_of_listed hleft
      split at hmem
      · cases hmem
      · exact hinside child (List.mem_cons.mpr (.inl (List.mem_singleton.mp hmem)))
    · exact hinside child (List.mem_cons_of_mem _ (mem_of_operands hoperand))
  | euclid text pulses length rotate onset offset =>
    rcases Option.or_eq_some_iff.mp hchild with honset | ⟨-, hoffset⟩
    · exact (hinside onset (List.mem_cons_self ..)).elements child (mem_of_listed honset)
    · cases offset with
      | none => cases mem_of_listed hoffset
      | some offset =>
        exact (hinside offset (List.mem_cons_of_mem _ (List.mem_cons_self ..))).elements child (mem_of_listed hoffset)
  | assignment text name eager value =>
    have hmem := mem_of_listed hchild
    split at hmem
    · exact hinside child hmem
    · cases hmem
  | _ => cases hchild

theorem Everywhere.at_path {P : Node → Prop} {path : Path} :
    ∀ {node inside : Node}, node.Everywhere P → node.at? path = some inside → inside.Everywhere P := by
  induction path with
  | nil =>
    intro node inside h hinside
    exact Option.some.inj hinside ▸ h
  | cons branch path ih =>
    intro node inside h hinside
    obtain ⟨child, hchild, hinside⟩ := Option.bind_eq_some_iff.mp hinside
    exact ih (h.layout hchild) hinside

/-- The node at a path in a pattern, where a path begins at one of the items. -/
def among? (nodes : List Node) : Path → Option Node
  | [] => none
  | branch :: path => (listed .value 0 nodes branch).bind (·.at? path)

theorem Everywhere.among {P : Node → Prop} {nodes : List Node} (h : ∀ node ∈ nodes, node.Everywhere P) {path : Path}
    {inside : Node} (hinside : among? nodes path = some inside) : inside.Everywhere P := by
  cases path with
  | nil => cases hinside
  | cons branch path =>
    obtain ⟨node, hnode, hinside⟩ := Option.bind_eq_some_iff.mp hinside
    exact (h node (mem_of_listed hnode)).at_path hinside

end Node

end NumberedMelody
