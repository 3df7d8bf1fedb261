/-
  NumberedMelody/Proofs/Tree/Blanks.lean
  ======================================
  **Trees without their blanks.**  Blanks stand between the items of lists, of
  blocks, of subdivisions and of the bodies of repeats, at any depth.  With all
  of them dropped a tree is solid; two trees that differ in blanks alone have
  the same solid tree.  A cycle goes round through all of its values, so none of
  these is dropped: reading has dropped the blanks among them already.
-/
import NumberedMelody.Evaluation.Context

namespace NumberedMelody

namespace Node

/-- The nodes that are no blanks. -/
def withoutBlanks (nodes : List Node) : List Node := nodes.filter (!·.isBlank)

theorem withoutBlanks_append (nodes others : List Node) :
    withoutBlanks (nodes ++ others) = withoutBlanks nodes ++ withoutBlanks others :=
  List.filter_append ..

/-! ### Dropping blanks at every depth -/

mutual

/-- The node, with no blanks in the lists inside it. -/
def solid : Node → Node
  | .sequence text overrides isList values => .sequence text overrides isList (solidAll values)
  | .cycle text values visits => .cycle text (solidEach values) visits
  | .subdivision text overrides values => .subdivision text overrides (solidAll values)
  | .repetition text replayed values count => .repetition text replayed (solidAll values) (solid count)
  | .operations text left steps => .operations text (solid left) (solidSteps steps)
  | .euclid text pulses length rotate onset offset =>
    .euclid text pulses length rotate (solid onset) (solidOption offset)
  | .assignment text name eager value => .assignment text name eager (solid value)
  | other => other

/-- The nodes that are no blanks, with no blanks inside them. -/
def solidAll : List Node → List Node
  | [] => []
  | node :: more => if node.isBlank then solidAll more else solid node :: solidAll more

/-- Every node in its place, with no blanks inside it. -/
def solidEach : List Node → List Node
  | [] => []
  | node :: more => solid node :: solidEach more

def solidOption : Option Node → Option Node
  | none => none
  | some node => some (solid node)

def solidStep : Operation Node → Operation Node
  | .binary op right => .binary op (solidOption right)
  | .map expr => .map expr

def solidSteps : List (Operation Node) → List (Operation Node)
  | [] => []
  | step :: more => solidStep step :: solidSteps more

end

theorem solidAll_eq_map (nodes : List Node) : solidAll nodes = (withoutBlanks nodes).map solid := by
  induction nodes with
  | nil => rfl
  | cons node more ih =>
    cases hblank : node.isBlank with
    | true => simpa [solidAll, withoutBlanks, hblank] using ih
    | false => simpa [solidAll, withoutBlanks, hblank] using ih

@[simp] theorem solidEach_eq_map (nodes : List Node) : solidEach nodes = nodes.map solid := by
  induction nodes with
  | nil => rfl
  | cons node more ih => rw [solidEach, ih, List.map_cons]

@[simp] theorem solidOption_eq_map (node : Option Node) : solidOption node = node.map solid := by
  cases node <;> rfl

@[simp] theorem solidSteps_eq_map (steps : List (Operation Node)) : solidSteps steps = steps.map solidStep := by
  induction steps with
  | nil => rfl
  | cons step more ih => rw [solidSteps, ih, List.map_cons]

@[simp] theorem text_solid (node : Node) : node.solid.text = node.text := by cases node <;> rfl

@[simp] theorem isBlank_solid (node : Node) : node.solid.isBlank = node.isBlank := by cases node <;> rfl

@[simp] theorem listOverrides_solid (node : Node) : node.solid.listOverrides = node.listOverrides := by
  cases node <;> rfl

theorem withoutBlanks_solidAll (nodes : List Node) : withoutBlanks (solidAll nodes) = solidAll nodes := by
  rw [solidAll_eq_map, withoutBlanks, withoutBlanks, List.filter_map, List.filter_filter]
  simp only [Function.comp_def, isBlank_solid, Bool.and_self]

@[simp] theorem elements_solid (node : Node) : node.solid.elements = node.elements.map solid := by
  cases node with
  | sequence text overrides isList values =>
    exact (withoutBlanks_solidAll values).trans (solidAll_eq_map values)
  | _ => rfl

theorem solidAll_events (events : List Event) : solidAll (events.map .event) = events.map .event := by
  induction events with
  | nil => rfl
  | cons e more ih =>
    rw [List.map_cons, solidAll, ih]
    rfl

/-! ### Solid trees -/

mutual

/-- A solid tree has no blanks to drop. -/
@[simp] theorem solid_solid : ∀ node : Node, node.solid.solid = node.solid
  | .sequence _ _ _ values => by simp only [solid, solidAll_solidAll values]
  | .cycle _ values _ => by simp only [solid, solidEach_solidEach values]
  | .subdivision _ _ values => by simp only [solid, solidAll_solidAll values]
  | .repetition _ _ values count => by simp only [solid, solidAll_solidAll values, solid_solid count]
  | .operations _ left steps => by simp only [solid, solid_solid left, solidSteps_solidSteps steps]
  | .euclid _ _ _ _ onset offset => by simp only [solid, solid_solid onset, solidOption_solidOption offset]
  | .assignment _ _ _ value => by simp only [solid, solid_solid value]
  | .blank _ => rfl
  | .bar _ => rfl
  | .change _ _ => rfl
  | .event _ => rfl
  | .numeral _ => rfl
  | .randomPitch _ _ => rfl
  | .randomInteger _ _ _ _ => rfl
  | .integer _ _ => rfl
  | .range _ _ _ _ => rfl
  | .expression _ _ _ => rfl
  | .variable _ _ => rfl
  | .together _ _ => rfl

theorem solidAll_solidAll : ∀ nodes : List Node, solidAll (solidAll nodes) = solidAll nodes
  | [] => rfl
  | node :: more => by
    cases hblank : node.isBlank with
    | true => simp only [solidAll, hblank, if_true, solidAll_solidAll more]
    | false =>
      simp only [solidAll, hblank, isBlank_solid, Bool.false_eq_true, if_false, solid_solid node,
        solidAll_solidAll more]

theorem solidEach_solidEach : ∀ nodes : List Node, solidEach (solidEach nodes) = solidEach nodes
  | [] => rfl
  | node :: more => by
    rw [solidEach, solidEach, solid_solid node, solidEach_solidEach more]

theorem solidOption_solidOption : ∀ node : Option Node, solidOption (solidOption node) = solidOption node
  | none => rfl
  | some node => congrArg some (solid_solid node)

theorem solidStep_solidStep : ∀ step : Operation Node, solidStep (solidStep step) = solidStep step
  | .binary op right => congrArg (Operation.binary op) (solidOption_solidOption right)
  | .map _ => rfl

theorem solidSteps_solidSteps : ∀ steps : List (Operation Node), solidSteps (solidSteps steps) = solidSteps steps
  | [] => rfl
  | step :: more => by rw [solidSteps, solidSteps, solidStep_solidStep step, solidSteps_solidSteps more]

end

/-! ### Depth -/

mutual

theorem depth_solid_le : ∀ node : Node, node.solid.depth ≤ node.depth
  | .sequence _ _ _ values => Nat.succ_le_succ (depthAll_solidAll_le values)
  | .cycle _ values _ => Nat.succ_le_succ (depthAll_solidEach_le values)
  | .subdivision _ _ values => Nat.succ_le_succ (depthAll_solidAll_le values)
  | .repetition _ _ values count => by
    have := depthAll_solidAll_le values
    have := depth_solid_le count
    simp only [solid, depth]
    omega
  | .operations _ left steps => by
    have := depth_solid_le left
    have := depthSteps_solidSteps_le steps
    simp only [solid, depth]
    omega
  | .euclid _ _ _ _ onset offset => by
    have := depth_solid_le onset
    have := depthOption_solidOption_le offset
    simp only [solid, depth]
    omega
  | .assignment _ _ _ value => Nat.succ_le_succ (depth_solid_le value)
  | .blank _ => Nat.le_refl _
  | .bar _ => Nat.le_refl _
  | .change _ _ => Nat.le_refl _
  | .event _ => Nat.le_refl _
  | .numeral _ => Nat.le_refl _
  | .randomPitch _ _ => Nat.le_refl _
  | .randomInteger _ _ _ _ => Nat.le_refl _
  | .integer _ _ => Nat.le_refl _
  | .range _ _ _ _ => Nat.le_refl _
  | .expression _ _ _ => Nat.le_refl _
  | .variable _ _ => Nat.le_refl _
  | .together _ _ => Nat.le_refl _

theorem depthAll_solidAll_le : ∀ nodes : List Node, depthAll (solidAll nodes) ≤ depthAll nodes
  | [] => Nat.le_refl _
  | node :: more => by
    have := depth_solid_le node
    have := depthAll_solidAll_le more
    rw [solidAll]
    split
    · simp only [depthAll]
      omega
    · simp only [depthAll]
      omega

theorem depthAll_solidEach_le : ∀ nodes : List Node, depthAll (solidEach nodes) ≤ depthAll nodes
  | [] => Nat.le_refl _
  | node :: more => by
    have := depth_solid_le node
    have := depthAll_solidEach_le more
    simp only [solidEach, depthAll]
    omega

theorem depthOption_solidOption_le : ∀ node : Option Node, depthOption (solidOption node) ≤ depthOption node
  | none => Nat.le_refl _
  | some node => depth_solid_le node

theorem depthStep_solidStep_le : ∀ step : Operation Node, depthStep (solidStep step) ≤ depthStep step
  | .binary _ right => depthOption_solidOption_le right
  | .map _ => Nat.le_refl _

theorem depthSteps_solidSteps_le : ∀ steps : List (Operation Node), depthSteps (solidSteps steps) ≤ depthSteps steps
  | [] => Nat.le_refl _
  | step :: more => by
    have := depthStep_solidStep_le step
    have := depthSteps_solidSteps_le more
    simp only [solidSteps, depthSteps]
    omega

end

end Node

/-! ### Contexts -/

section Stored

variable {α β : Type} (f : α → β)

theorem Named.insert_map (name : String) (a : α) (entries : Named α) :
    Named.insert name (f a) (entries.map fun entry => (entry.1, f entry.2)) =
      (entries.insert name a).map fun entry => (entry.1, f entry.2) := by
  induction entries with
  | nil => rfl
  | cons entry rest ih =>
    obtain ⟨other, b⟩ := entry
    rw [List.map_cons, Named.insert, Named.insert, ih]
    split
    · rfl
    · split <;> rfl

theorem Named.lookup_map (name : String) (entries : Named α) :
    (entries.map fun entry => (entry.1, f entry.2)).lookup name = (entries.lookup name).map f := by
  induction entries with
  | nil => rfl
  | cons entry rest ih =>
    obtain ⟨other, b⟩ := entry
    rw [List.map_cons, List.lookup_cons, List.lookup_cons, ih]
    rcases name == other <;> rfl

end Stored

namespace Context

/-- The context, with no blanks in the values of variables. -/
def solid (context : Context) : Context :=
  { context with stored := context.stored.map fun entry => (entry.1, entry.2.solid) }

variable (context : Context)

@[simp] theorem inside_solid (overrides : Overrides) :
    context.solid.inside overrides = (context.inside overrides).solid := by
  unfold inside
  split <;> rfl

@[simp] theorem after_solid (change : Change) : context.solid.after change = (context.after change).solid := by
  cases change <;> rfl

@[simp] theorem assign_solid (name : String) (value : Node) :
    context.solid.assign name value.solid = (context.assign name value).solid := by
  simp only [assign, solid, Named.insert_map]

@[simp] theorem lookup_solid (name : String) :
    context.solid.stored.lookup name = (context.stored.lookup name).map Node.solid :=
  Named.lookup_map Node.solid name context.stored

end Context

end NumberedMelody
