/-
  NumberedMelody/Proofs/Tree/Shape.lean
  =====================================
  **The shape of a tree.**  `children` lists the nodes directly inside a node,
  `Everywhere` says something of a node and of all nodes inside it, and
  `unplayed` is the tree with no cycle visited and no chord kept: two trees that
  evaluation can have made of one have the same `unplayed` tree, and with it the
  same depth.
-/
import NumberedMelody.Tree.Node

namespace NumberedMelody

/-- The right operand of an operation, if it has one. -/
def Operation.right? {ν : Type} : Operation ν → Option ν
  | .binary _ right => right
  | .map _ => none

namespace Node

/-! ### The nodes inside a node -/

/-- The nodes directly inside a node. -/
def children : Node → List Node
  | .sequence _ _ _ values => values
  | .cycle _ values _ => values
  | .subdivision _ _ values => values
  | .repetition _ _ values count => count :: values
  | .operations _ left steps => left :: steps.filterMap Operation.right?
  | .euclid _ _ _ _ onset offset => onset :: offset.toList
  | .assignment _ _ _ value => [value]
  | _ => []

/-- Something holds of a node and of every node inside it, at any depth. -/
inductive Everywhere (P : Node → Prop) : Node → Prop where
  | intro {node : Node} (here : P node) (inside : ∀ child ∈ node.children, Everywhere P child) :
    Everywhere P node

/-- The node deals its values out in turn. -/
def isCycle : Node → Bool
  | .cycle _ _ _ => true
  | _ => false

theorem Everywhere.here {P : Node → Prop} {node : Node} : Everywhere P node → P node
  | .intro here _ => here

theorem Everywhere.inside {P : Node → Prop} {node : Node} :
    Everywhere P node → ∀ child ∈ node.children, Everywhere P child
  | .intro _ inside => inside

theorem Everywhere.imp {P Q : Node → Prop} (h : ∀ node, P node → Q node) {node : Node} (hnode : node.Everywhere P) :
    node.Everywhere Q := by
  induction hnode with
  | intro here _ ih => exact .intro (h _ here) ih

theorem Everywhere.and {P Q : Node → Prop} {node : Node} (hP : node.Everywhere P) (hQ : node.Everywhere Q) :
    node.Everywhere fun inside => P inside ∧ Q inside := by
  induction hP with
  | intro here _ ih => exact .intro ⟨here, hQ.here⟩ fun child hchild => ih child hchild (hQ.inside child hchild)

/-- Check a node and the nodes inside it to a depth. -/
def checkTo (p : Node → Bool) : Nat → Node → Bool
  | 0, _ => false
  | depth + 1, node => p node && node.children.all (checkTo p depth)

theorem everywhere_of_checkTo {p : Node → Bool} (depth : Nat) :
    ∀ {node : Node}, checkTo p depth node = true → node.Everywhere fun node => p node = true := by
  induction depth with
  | zero =>
    intro node h
    simp [checkTo] at h
  | succ depth ih =>
    intro node h
    simp only [checkTo, Bool.and_eq_true, List.all_eq_true] at h
    exact .intro h.1 fun child hchild => ih (h.2 child hchild)

/-! ### Taking back what evaluation leaves in a tree -/

mutual

/-- The tree with no cycle visited and no chord kept yet. -/
def unplayed : Node → Node
  | .sequence text overrides isList values => .sequence text overrides isList (unplayedAll values)
  | .cycle text values _ => .cycle text (unplayedAll values) 0
  | .subdivision text overrides values => .subdivision text overrides (unplayedAll values)
  | .repetition text replayed values count => .repetition text replayed (unplayedAll values) (unplayed count)
  | .operations text left steps => .operations text (unplayed left) (unplayedSteps steps)
  | .euclid text pulses length rotate onset offset =>
    .euclid text pulses length rotate (unplayed onset) (unplayedOption offset)
  | .assignment text name eager value => .assignment text name eager (unplayed value)
  | .numeral k => .numeral { numeral := k.numeral }
  | other => other

def unplayedAll : List Node → List Node
  | [] => []
  | node :: more => unplayed node :: unplayedAll more

def unplayedOption : Option Node → Option Node
  | none => none
  | some node => some (unplayed node)

def unplayedStep : Operation Node → Operation Node
  | .binary op right => .binary op (unplayedOption right)
  | .map expr => .map expr

def unplayedSteps : List (Operation Node) → List (Operation Node)
  | [] => []
  | step :: more => unplayedStep step :: unplayedSteps more

end

theorem unplayedAll_eq_map (nodes : List Node) : unplayedAll nodes = nodes.map unplayed := by
  induction nodes with
  | nil => rfl
  | cons node more ih => simp only [unplayedAll, ih, List.map_cons]

theorem unplayedOption_eq_map (node : Option Node) : unplayedOption node = node.map unplayed := by
  cases node <;> rfl

theorem unplayedSteps_eq_map (steps : List (Operation Node)) :
    unplayedSteps steps = steps.map unplayedStep := by
  induction steps with
  | nil => rfl
  | cons step more ih => simp only [unplayedSteps, ih, List.map_cons]

theorem right?_unplayedStep (step : Operation Node) :
    (unplayedStep step).right? = step.right?.map unplayed := by
  cases step with
  | binary op right => exact unplayedOption_eq_map right
  | map expr => rfl

theorem operands_unplayedSteps (steps : List (Operation Node)) :
    (unplayedSteps steps).filterMap Operation.right? = (steps.filterMap Operation.right?).map unplayed := by
  induction steps with
  | nil => rfl
  | cons step more ih =>
    have hstep := right?_unplayedStep step
    cases hright : step.right? with
    | none =>
      rw [hright, Option.map_none] at hstep
      rw [unplayedSteps, List.filterMap_cons_none hstep, List.filterMap_cons_none hright, ih]
    | some right =>
      rw [hright, Option.map_some] at hstep
      rw [unplayedSteps, List.filterMap_cons_some hstep, List.filterMap_cons_some hright, ih, List.map_cons]

@[simp] theorem isCycle_unplayed (node : Node) : node.unplayed.isCycle = node.isCycle := by
  cases node <;> simp only [unplayed, isCycle]

@[simp] theorem isBlank_unplayed (node : Node) : node.unplayed.isBlank = node.isBlank := by
  cases node <;> simp only [unplayed, isBlank]

theorem isBlank_eq_of_unplayed_eq {node other : Node} (h : other.unplayed = node.unplayed) :
    other.isBlank = node.isBlank := by
  rw [← isBlank_unplayed other, h, isBlank_unplayed]

/-- What does not look at visits and kept chords holds of a node that differs in them. -/
theorem holds_of_unplayed_eq {P : Node → Prop} (hP : ∀ node : Node, P node.unplayed ↔ P node) {node other : Node}
    (h : P node) (hshape : other.unplayed = node.unplayed) : P other := by
  rw [← hP, hshape, hP]
  exact h

/-- What does not depend on visits and kept chords holds of all nodes that differ in them. -/
theorem forall_of_unplayedAll_eq {P : Node → Prop}
    (hP : ∀ {node other : Node}, P node → other.unplayed = node.unplayed → P other) {nodes others : List Node}
    (h : ∀ node ∈ nodes, P node) (hshape : unplayedAll others = unplayedAll nodes) : ∀ other ∈ others, P other := by
  intro other hother
  rw [unplayedAll_eq_map, unplayedAll_eq_map] at hshape
  have hmem := List.mem_map_of_mem (f := unplayed) hother
  rw [hshape] at hmem
  obtain ⟨node, hnode, heq⟩ := List.mem_map.mp hmem
  exact hP (h node hnode) heq.symm

/-- The node is a list or a block. -/
def isSequence : Node → Bool
  | .sequence _ _ _ _ => true
  | _ => false

@[simp] theorem isSequence_unplayed (node : Node) : node.unplayed.isSequence = node.isSequence := by
  cases node <;> simp only [unplayed, isSequence]

theorem elements_of_not_sequence {node : Node} (h : node.isSequence = false) : node.elements = [node] := by
  cases node with
  | sequence text overrides isList values => cases h
  | _ => rfl

theorem children_unplayed (node : Node) : node.unplayed.children = node.children.map unplayed := by
  cases node with
  | operations text left steps =>
    simp only [unplayed, children, operands_unplayedSteps, List.map_cons]
  | euclid text pulses length rotate onset offset =>
    cases offset <;> simp [unplayed, children, unplayedOption]
  | _ => simp [unplayed, children, unplayedAll_eq_map]

theorem Everywhere.elements {P : Node → Prop} {node : Node} (h : node.Everywhere P) :
    ∀ element ∈ node.elements, element.Everywhere P := by
  intro element helement
  cases node with
  | sequence text overrides isList values => exact h.inside element (List.mem_filter.mp helement).1
  | _ =>
    obtain rfl := List.mem_singleton.mp helement
    exact h

/-- What does not depend on visits and kept chords holds everywhere whatever they are. -/
theorem Everywhere.of_unplayed_eq {P : Node → Prop}
    (hP : ∀ {node other : Node}, P node → other.unplayed = node.unplayed → P other) {node other : Node}
    (h : node.Everywhere P) (hshape : other.unplayed = node.unplayed) : other.Everywhere P := by
  induction h generalizing other with
  | intro here _ ih =>
    refine .intro (hP here hshape) ?_
    intro child hchild
    have hmem := List.mem_map_of_mem (f := unplayed) hchild
    rw [← children_unplayed, hshape, children_unplayed] at hmem
    obtain ⟨child', hchild', heq⟩ := List.mem_map.mp hmem
    exact ih child' hchild' heq.symm

/-! ### Operators between lists -/

/-- Two lists are joined by an operator in one of the operations. -/
def uses (op : ListOperator) : Node → Bool
  | .operations _ _ steps => steps.any fun step =>
    match step with
    | .binary other _ => other == op
    | .map _ => false
  | _ => false

@[simp] theorem uses_unplayed (op : ListOperator) (node : Node) : node.unplayed.uses op = node.uses op := by
  cases node with
  | operations text left steps =>
    simp only [unplayed, uses, unplayedSteps_eq_map, List.any_map]
    refine congrArg steps.any (funext fun step => ?_)
    cases step <;> rfl
  | _ => simp only [unplayed, uses]

/-! ### Trees without cycles -/

/-- No node is a cycle, at any depth. -/
abbrev Acyclic : Node → Prop := Everywhere fun node => node.isCycle = false

theorem Acyclic.of_unplayed_eq {node other : Node} (h : node.Acyclic) (hshape : other.unplayed = node.unplayed) :
    other.Acyclic := by
  refine Everywhere.of_unplayed_eq ?_ h hshape
  intro node other hnode hshape
  rw [← isCycle_unplayed other, hshape, isCycle_unplayed]
  exact hnode

/-! ### Depth -/

mutual

theorem depth_unplayed : ∀ node : Node, node.unplayed.depth = node.depth
  | .sequence _ _ _ values => by simp only [unplayed, depth, depthAll_unplayedAll values]
  | .cycle _ values _ => by simp only [unplayed, depth, depthAll_unplayedAll values]
  | .subdivision _ _ values => by simp only [unplayed, depth, depthAll_unplayedAll values]
  | .repetition _ _ values count => by
    simp only [unplayed, depth, depthAll_unplayedAll values, depth_unplayed count]
  | .operations _ left steps => by
    simp only [unplayed, depth, depth_unplayed left, depthSteps_unplayedSteps steps]
  | .euclid _ _ _ _ onset offset => by
    simp only [unplayed, depth, depth_unplayed onset, depthOption_unplayedOption offset]
  | .assignment _ _ _ value => by simp only [unplayed, depth, depth_unplayed value]
  | .blank _ => rfl
  | .bar _ => rfl
  | .change _ _ => rfl
  | .event _ => rfl
  | .numeral _ => rfl
  | .randomPitch _ _ => rfl
  | .randomInteger _ _ _ _ => rfl
  | .integer _ _ => rfl
  | .range _ _ _ _ => rfl
  | .expression _ _ _ => rfl
  | .variable _ _ => rfl
  | .together _ _ => rfl

theorem depthAll_unplayedAll : ∀ nodes : List Node, depthAll (unplayedAll nodes) = depthAll nodes
  | [] => rfl
  | node :: more => by simp only [unplayedAll, depthAll, depth_unplayed node, depthAll_unplayedAll more]

theorem depthOption_unplayedOption :
    ∀ node : Option Node, depthOption (unplayedOption node) = depthOption node
  | none => rfl
  | some node => by simp only [unplayedOption, depthOption, depth_unplayed node]

theorem depthStep_unplayedStep :
    ∀ step : Operation Node, depthStep (unplayedStep step) = depthStep step
  | .binary _ right => by simp only [unplayedStep, depthStep, depthOption_unplayedOption right]
  | .map _ => rfl

theorem depthSteps_unplayedSteps :
    ∀ steps : List (Operation Node), depthSteps (unplayedSteps steps) = depthSteps steps
  | [] => rfl
  | step :: more => by
    simp only [unplayedSteps, depthSteps, depthStep_unplayedStep step, depthSteps_unplayedSteps more]

end

theorem depth_eq_of_unplayed_eq {node other : Node} (h : other.unplayed = node.unplayed) :
    other.depth = node.depth := by
  rw [← depth_unplayed other, h, depth_unplayed]

theorem depth_pos (node : Node) : 0 < node.depth := by
  cases node <;> simp only [depth] <;> omega

theorem depth_le_depthAll {node : Node} {nodes : List Node} (h : node ∈ nodes) : node.depth ≤ depthAll nodes := by
  induction nodes with
  | nil => cases h
  | cons first more ih =>
    simp only [depthAll]
    rcases List.mem_cons.mp h with rfl | hmore
    · exact Nat.le_max_left _ _
    · exact Nat.le_trans (ih hmore) (Nat.le_max_right _ _)

theorem depth_le_depthSteps {right : Node} {steps : List (Operation Node)}
    (h : right ∈ steps.filterMap Operation.right?) : right.depth ≤ depthSteps steps := by
  induction steps with
  | nil => simp at h
  | cons step more ih =>
    simp only [depthSteps]
    cases hright : step.right? with
    | none =>
      rw [List.filterMap_cons_none hright] at h
      exact Nat.le_trans (ih h) (Nat.le_max_right _ _)
    | some operand =>
      rw [List.filterMap_cons_some hright] at h
      rcases List.mem_cons.mp h with rfl | hmore
      · cases step with
        | map expr => simp [Operation.right?] at hright
        | binary op right' =>
          simp only [Operation.right?] at hright
          subst hright
          exact Nat.le_max_left _ _
      · exact Nat.le_trans (ih hmore) (Nat.le_max_right _ _)

theorem depth_lt_of_mem_children {node child : Node} (h : child ∈ node.children) : child.depth < node.depth := by
  cases node with
  | sequence text overrides isList values =>
    have : child.depth ≤ depthAll values := depth_le_depthAll h
    simp only [depth]
    omega
  | cycle text values visits =>
    have : child.depth ≤ depthAll values := depth_le_depthAll h
    simp only [depth]
    omega
  | subdivision text overrides values =>
    have : child.depth ≤ depthAll values := depth_le_depthAll h
    simp only [depth]
    omega
  | repetition text replayed values count =>
    simp only [depth]
    rcases List.mem_cons.mp h with rfl | hvalue
    · omega
    · have := depth_le_depthAll hvalue
      omega
  | operations text left steps =>
    simp only [depth]
    rcases List.mem_cons.mp h with rfl | hright
    · omega
    · have := depth_le_depthSteps hright
      omega
  | euclid text pulses length rotate onset offset =>
    simp only [depth]
    rcases List.mem_cons.mp h with rfl | hoffset
    · omega
    · cases offset with
      | none => simp at hoffset
      | some offset =>
        simp only [Option.toList, List.mem_singleton] at hoffset
        subst hoffset
        simp only [depthOption]
        omega
  | assignment text name eager value =>
    simp only [children, List.mem_singleton] at h
    subst h
    simp only [depth]
    omega
  | _ => simp [children] at h

theorem everywhere_of_all {P : Node → Prop} (h : ∀ node, P node) (node : Node) : node.Everywhere P := by
  induction hdepth : node.depth using Nat.strongRecOn generalizing node with
  | ind depth ih =>
    refine .intro (h node) ?_
    intro child hchild
    exact ih child.depth (hdepth ▸ depth_lt_of_mem_children hchild) child rfl

theorem depth_le_of_mem_elements {node element : Node} (h : element ∈ node.elements) :
    element.depth ≤ node.depth := by
  cases node with
  | sequence text overrides isList values =>
    have hmem := (List.mem_filter.mp h).1
    have := depth_le_depthAll hmem
    simp only [depth]
    omega
  | _ =>
    simp only [elements, List.mem_singleton] at h
    exact Nat.le_of_eq (congrArg depth h)

end Node

end NumberedMelody
