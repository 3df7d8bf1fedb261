/-
  NumberedMelody/Proofs/Tree/Naming.lean
  ======================================
  **Which variable leads to which.**  A use of a variable may run the value of
  any lazy assignment to it, so one name leads to another if such a value, at
  any depth, uses the other.  If no name comes back to itself, every name has a
  rank, and a rank below it has whatever its values use (`rank_lt`).  Names are
  letters, so ranks are bounded (`rank_le`).
-/
import NumberedMelody.Proofs.Grammar.Written
import Mathlib.Data.Finset.Card
import Mathlib.Logic.Relation

namespace NumberedMelody

/-! ### Nodes in nodes -/

namespace Node

/-- The node itself, or a node inside it at any depth. -/
inductive Contains : Node → Node → Prop where
  | here (node : Node) : Contains node node
  | deeper {node child inside : Node} (hchild : child ∈ node.children) (hinside : Contains child inside) :
    Contains node inside

theorem everywhere_iff_contains {P : Node → Prop} {node : Node} :
    node.Everywhere P ↔ ∀ inside, node.Contains inside → P inside := by
  constructor
  · intro h inside hinside
    induction hinside with
    | here node => exact h.here
    | deeper hchild _ ih => exact ih (h.inside _ hchild)
  · intro h
    -- nodes are nested to a depth only
    induction hdepth : node.depth using Nat.strongRecOn generalizing node with
    | ind depth ih =>
      subst hdepth
      refine .intro (h node (.here node)) ?_
      intro child hchild
      exact ih child.depth (depth_lt_of_mem_children hchild) (fun inside hinside => h inside (.deeper hchild hinside)) rfl

theorem Everywhere.of_contains {P : Node → Prop} {node inside : Node} (h : node.Everywhere P)
    (hinside : node.Contains inside) : inside.Everywhere P := by
  induction hinside with
  | here node => exact h
  | deeper hchild _ ih => exact ih (h.inside _ hchild)

@[simp] theorem used_unplayed (node : Node) : node.unplayed.used = node.used := by
  cases node <;> simp only [unplayed, used]

end Node

/-! ### Names that lead to names -/

section Naming

variable (nodes : List Node)

/-- The value of a lazy assignment to one name, anywhere in the nodes, uses another. -/
def LeadsTo (name other : String) : Prop :=
  ∃ node ∈ nodes, ∃ text value inside, node.Contains (.assignment text name false value) ∧
    value.Contains inside ∧ other ∈ inside.used

/-- Some name comes back to itself. -/
def Circular : Prop := ∃ name, Relation.TransGen (LeadsTo nodes) name name

/-- Every capital, as a name. -/
def capitals : Finset String := (Finset.range 26).image fun i => (Char.ofNat (65 + i)).toString

open Classical in
/-- The names that a name leads to in the end. -/
noncomputable def ahead (name : String) : Finset String :=
  {other ∈ capitals | Relation.TransGen (LeadsTo nodes) name other}

noncomputable def rank (name : String) : Nat := (ahead nodes name).card

variable {nodes}

theorem mem_ahead {name other : String} :
    other ∈ ahead nodes name ↔ other ∈ capitals ∧ Relation.TransGen (LeadsTo nodes) name other := by
  simp only [ahead, Finset.mem_filter]

theorem IsName.mem_capitals {name : String} (h : IsName name) : name ∈ capitals := by
  obtain ⟨c, hc, rfl⟩ := h
  rw [Bool.and_eq_true, Bool.and_eq_true] at hc
  obtain ⟨⟨hupper, -⟩, -⟩ := hc
  obtain ⟨hlow, hhigh⟩ : 'A'.val ≤ c.val ∧ c.val ≤ 'Z'.val := of_decide_eq_true hupper
  have hlow' : 65 ≤ c.toNat := UInt32.le_iff_toNat_le.mp hlow
  have hhigh' : c.toNat ≤ 90 := UInt32.le_iff_toNat_le.mp hhigh
  refine Finset.mem_image.mpr ⟨c.toNat - 65, Finset.mem_range.mpr (by omega), ?_⟩
  rw [Nat.add_sub_cancel' hlow', Char.ofNat_toNat]

theorem rank_le (name : String) : rank nodes name ≤ 26 := by
  have hcapitals : capitals.card ≤ (Finset.range 26).card := Finset.card_image_le
  have hahead : ahead nodes name ⊆ capitals := fun other hother => (mem_ahead.mp hother).1
  rw [Finset.card_range] at hcapitals
  exact Nat.le_trans (Finset.card_le_card hahead) hcapitals

/-- **Ranks fall.** -/
theorem rank_lt {name other : String} (hacyclic : ¬ Circular nodes) (hother : IsName other)
    (h : LeadsTo nodes name other) : rank nodes other < rank nodes name := by
  have hsubset : ahead nodes other ⊆ ahead nodes name := by
    intro further hfurther
    obtain ⟨hcapital, hahead⟩ := mem_ahead.mp hfurther
    exact mem_ahead.mpr ⟨hcapital, .head h hahead⟩
  -- the other name is ahead of the first, but not of itself
  apply Finset.card_lt_card
  rw [Finset.ssubset_iff_of_subset hsubset]
  refine ⟨other, mem_ahead.mpr ⟨hother.mem_capitals, .single h⟩, ?_⟩
  intro hself
  exact hacyclic ⟨other, (mem_ahead.mp hself).2⟩

end Naming

/-! ### Nodes by the rank of their names -/

/-- What a lazy assignment puts in a value, at any depth, uses names of a lower rank. -/
def Node.Descends (rank : String → Nat) : Node → Prop
  | .assignment _ name false value => value.Everywhere fun inside => ∀ other ∈ inside.used, rank other < rank name
  | _ => True

/-- The names that a node uses are of a rank below `bound`, and those that it
    puts in the value of a variable are of a rank below the variable. -/
structure Node.Ranked (rank : String → Nat) (bound : Nat) (node : Node) : Prop where
  used : ∀ name ∈ node.used, rank name < bound
  descends : node.Descends rank

section Ranks

variable {rank : String → Nat} {bound : Nat} {node other : Node}

theorem Node.Descends.of_unplayed_eq (h : node.Descends rank) (hvisits : other.unplayed = node.unplayed) :
    other.Descends rank := by
  cases other with
  | assignment text name eager value =>
    cases eager with
    | true => trivial
    | false =>
      cases node with
      | assignment text' name' eager' value' =>
        simp only [unplayed, assignment.injEq] at hvisits
        obtain ⟨-, rfl, rfl, hvalue⟩ := hvisits
        refine Everywhere.of_unplayed_eq ?_ h hvalue
        intro inside seen hinside hvisits
        rw [← used_unplayed, hvisits, used_unplayed]
        exact hinside
      | _ => simp [unplayed] at hvisits
  | _ => trivial

theorem Node.Ranked.of_unplayed_eq (h : node.Ranked rank bound) (hvisits : other.unplayed = node.unplayed) :
    other.Ranked rank bound := by
  refine ⟨?_, h.descends.of_unplayed_eq hvisits⟩
  rw [← used_unplayed, hvisits, used_unplayed]
  exact h.used

/-- The value of a lazy assignment is of the rank of its name. -/
theorem Node.everywhere_ranked_value {text name : String} {value : Node}
    (h : (Node.assignment text name false value).Everywhere (Ranked rank bound)) :
    value.Everywhere (Ranked rank (rank name)) := by
  have hvalue := h.inside value (List.mem_singleton.mpr rfl)
  exact (hvalue.and h.here.descends).imp fun _ hinside => ⟨hinside.2, hinside.1.descends⟩

end Ranks

/-- **What is read without circles is ranked.** -/
theorem everywhere_ranked {text : String} {nodes : List Node} (hread : readPattern text = .ok nodes)
    (hacyclic : ¬ Circular nodes) : ∀ node ∈ nodes, node.Everywhere (Node.Ranked (rank nodes) 27) := by
  intro node hnode
  have hreadable := readPattern_readable hread node hnode
  rw [Node.everywhere_iff_contains]
  intro inside hinside
  constructor
  · intro name _
    exact Nat.lt_succ_of_le (rank_le name)
  · cases inside with
    | assignment text name eager value =>
      cases eager with
      | true => trivial
      | false =>
        have hvalue := (hreadable.of_contains hinside).inside value (List.mem_singleton.mpr rfl)
        refine Node.everywhere_iff_contains.mpr ?_
        intro user huser other hother
        have hname := (hvalue.of_contains huser).here.legible.isName_of_used other hother
        exact rank_lt hacyclic hname ⟨node, hnode, text, value, user, hinside, huser, hother⟩
    | _ => trivial

/-! ### Finding no circle -/

/-- Where any rank falls there is no circle. -/
theorem not_circular_of_descends {nodes : List Node} (rank : String → Nat)
    (h : ∀ node ∈ nodes, node.Everywhere (Node.Descends rank)) : ¬ Circular nodes := by
  have hstep : ∀ {name other}, LeadsTo nodes name other → rank other < rank name := by
    rintro name other ⟨node, hnode, text, value, user, hassignment, huser, hother⟩
    have hvalue : value.Everywhere _ := ((h node hnode).of_contains hassignment).here
    exact (hvalue.of_contains huser).here other hother
  rintro ⟨name, hname⟩
  have hfalls : ∀ {other}, Relation.TransGen (LeadsTo nodes) name other → rank other < rank name := by
    intro other hother
    induction hother with
    | single hnext => exact hstep hnext
    | tail _ hnext ih => exact Nat.lt_trans (hstep hnext) ih
  exact Nat.lt_irrefl _ (hfalls hname)

/-- Check that ranks fall, to a depth of the value. -/
def Node.descendsTo (rank : String → Nat) (depth : Nat) : Node → Bool
  | .assignment _ name false value => checkTo (·.used.all (rank · < rank name)) depth value
  | _ => true

theorem Node.descends_of_descendsTo {rank : String → Nat} {depth : Nat} {node : Node}
    (h : node.descendsTo rank depth = true) : node.Descends rank := by
  cases node with
  | assignment text name eager value =>
    cases eager with
    | true => trivial
    | false =>
      refine (everywhere_of_checkTo depth h).imp ?_
      intro inside hinside other hother
      exact of_decide_eq_true (List.all_eq_true.mp hinside other hother)
  | _ => trivial

end NumberedMelody
