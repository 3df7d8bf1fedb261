/-
  NumberedMelody/Proofs/Evaluation/Tally.lean
  ===========================================
  **Visits and counters.**  A log of visits accounts for what became of a tree:
  every cycle in it has been counted on by as many visits as there are of its
  path, and ran its values in turn, from the one that its counter stood at.
  Logs one after the other account for changes one after the other, and logs of
  branches side by side for the changes on these branches.
-/
import NumberedMelody.Proofs.Tree.Layout

namespace NumberedMelody

open Node (unplayedAll)

/-! ### Parts of a log -/

/-- The visits on a branch, as paths from there on. -/
def below (branch : Branch) (visits : List Path) : List Path :=
  visits.filterMap fun
    | first :: path => if first = branch then some path else none
    | [] => none

/-- The visits at the end of a path and beyond, as paths from there on. -/
def beyond : Path → List Path → List Path
  | [], visits => visits
  | branch :: path, visits => beyond path (below branch visits)

/-- The visits at the root of a log and right below it. -/
def nearest (visits : List Path) : List Path := visits.filter fun path => path.length ≤ 1

/-- Visits of a cycle, each with the value whose turn it is, from a count on. -/
def turnsFrom (start visits length : Nat) : List Path :=
  (List.range visits).flatMap fun j => [[], [⟨.value, (start + j) % length⟩]]

theorem below_append (branch : Branch) (visits others : List Path) :
    below branch (visits ++ others) = below branch visits ++ below branch others :=
  List.filterMap_append

theorem beyond_append (path : Path) (visits others : List Path) :
    beyond path (visits ++ others) = beyond path visits ++ beyond path others := by
  induction path generalizing visits others with
  | nil => rfl
  | cons branch path ih => rw [beyond, below_append, ih, beyond, beyond]

theorem beyond_nil (path : Path) : beyond path [] = [] := by
  induction path with
  | nil => rfl
  | cons branch path ih => exact ih

theorem below_root (branch : Branch) (visits : List Path) : below branch ([] :: visits) = below branch visits := rfl

theorem below_on (branch : Branch) (visits : List Path) : below branch (visits.map (branch :: ·)) = visits := by
  rw [below, List.filterMap_map]
  exact (congrArg (List.filterMap · visits) (funext fun _ => if_pos rfl)).trans List.filterMap_some

theorem below_off {branch other : Branch} (h : other ≠ branch) (visits : List Path) :
    below branch (visits.map (other :: ·)) = [] := by
  rw [below, List.filterMap_map]
  exact List.filterMap_eq_nil_iff.mpr fun path _ => if_neg h

theorem count_below (branch : Branch) (path : Path) (visits : List Path) :
    (below branch visits).count path = visits.count (branch :: path) := by
  induction visits with
  | nil => rfl
  | cons visit visits ih =>
    cases visit with
    | nil =>
      rw [below_root, ih]
      exact (List.count_cons_of_ne (List.cons_ne_nil branch path).symm).symm
    | cons first rest =>
      by_cases hfirst : first = branch
      · subst hfirst
        simpa [below, List.count_cons] using ih
      · simpa [below, List.count_cons, hfirst] using ih

theorem count_beyond (path : Path) (visits : List Path) : (beyond path visits).count [] = visits.count path := by
  induction path generalizing visits with
  | nil => rfl
  | cons branch path ih => rw [beyond, ih, count_below]

/-- A node and one of its values are visited once. -/
theorem count_one (branch : Branch) (visits : List Path) :
    ([] :: [branch] :: visits.map (branch :: ·)).count [] = 1 := by
  have hnone : (visits.map (branch :: ·)).count [] = 0 := List.count_eq_zero.mpr (by simp)
  rw [List.count_cons_self, List.count_cons_of_ne (List.cons_ne_nil branch []), hnone]

theorem nearest_one {visits : List Path} (h : [] ∉ visits) (branch : Branch) :
    nearest ([] :: [branch] :: visits.map (branch :: ·)) = [[], [branch]] := by
  have hnone : nearest (visits.map (branch :: ·)) = [] := by
    refine List.filter_eq_nil_iff.mpr fun path hpath => ?_
    obtain ⟨inner, hinner, rfl⟩ := List.mem_map.mp hpath
    cases inner with
    | nil => exact absurd hinner h
    | cons first rest => simp
  show [] :: [branch] :: nearest (visits.map (branch :: ·)) = _
  rw [hnone]

theorem nearest_append (visits others : List Path) : nearest (visits ++ others) = nearest visits ++ nearest others :=
  List.filter_append ..

theorem turnsFrom_add (start visits others length : Nat) :
    turnsFrom start (visits + others) length = turnsFrom start visits length ++ turnsFrom (start + visits) others length := by
  simp only [turnsFrom, List.range_add, List.flatMap_append, List.flatMap_map, Nat.add_assoc]

/-! ### What a log accounts for -/

/-- If the node is a cycle, it has counted the visits of the root, and its
    values took their turn. -/
def Counted (node later : Node) (visits : List Path) : Prop :=
  ∀ text values start, node = .cycle text values start → values ≠ [] →
    (∃ values', later = .cycle text values' (start + visits.count []) ∧ unplayedAll values' = unplayedAll values) ∧
      nearest visits = turnsFrom start (visits.count []) values.length

theorem Counted.refl (node : Node) : Counted node node [] := by
  rintro text values start rfl _
  exact ⟨⟨values, rfl, rfl⟩, rfl⟩

theorem Counted.trans {node later last : Node} {visits others : List Path} (h : Counted node later visits)
    (hlater : Counted later last others) : Counted node last (visits ++ others) := by
  intro text values start hnode hvalues
  obtain ⟨⟨values', hcycle, hshape⟩, hturns⟩ := h text values start hnode hvalues
  have hlength : values'.length = values.length := by
    simpa [Node.unplayedAll_eq_map] using congrArg List.length hshape
  have hvalues' : values' ≠ [] := by
    rw [← List.length_pos_iff, hlength]
    exact List.length_pos_iff.mpr hvalues
  obtain ⟨⟨values'', hcycle', hshape'⟩, hturns'⟩ := hlater text values' _ hcycle hvalues'
  refine ⟨⟨values'', ?_, hshape'.trans hshape⟩, ?_⟩
  · rw [hcycle', List.count_append, Nat.add_assoc]
  · rw [nearest_append, List.count_append, turnsFrom_add, hturns, hturns', hlength]

/-- At the end of a path: no node and no visits, or a node that has counted them. -/
inductive Accounted : Option Node → Option Node → List Path → Prop where
  | absent : Accounted none none []
  | present {node later : Node} {visits : List Path} (h : Counted node later visits) :
    Accounted (some node) (some later) visits

theorem Accounted.refl (node : Option Node) : Accounted node node [] := by
  cases node with
  | none => exact .absent
  | some node => exact .present (.refl node)

theorem Accounted.of_some {node : Node} {found later : Option Node} {visits : List Path} (h : Accounted found later visits)
    (hfound : found = some node) : ∃ left, later = some left ∧ Counted node left visits := by
  cases h with
  | absent => cases hfound
  | present h =>
    obtain rfl := Option.some.inj hfound
    exact ⟨_, rfl, h⟩

theorem Accounted.trans {node later last : Option Node} {visits others : List Path} (h : Accounted node later visits)
    (hlater : Accounted later last others) : Accounted node last (visits ++ others) := by
  cases h with
  | absent =>
    cases hlater with
    | absent => exact .absent
  | present h =>
    cases hlater with
    | present hlater => exact .present (h.trans hlater)

/-- A log accounts for a node and for the nodes on all paths from it. -/
def Tallied (node later : Option Node) (visits : List Path) : Prop :=
  ∀ path, Accounted (node.bind (·.at? path)) (later.bind (·.at? path)) (beyond path visits)

namespace Tallied

theorem refl (node : Option Node) : Tallied node node [] := by
  intro path
  rw [beyond_nil]
  exact .refl _

theorem trans {node later last : Option Node} {visits others : List Path} (h : Tallied node later visits)
    (hlater : Tallied later last others) : Tallied node last (visits ++ others) := by
  intro path
  rw [beyond_append]
  exact (h path).trans (hlater path)

theorem eq_of_none {later : Option Node} {visits : List Path} (h : Tallied none later visits) :
    later = none ∧ visits = [] := by
  have hroot := h []
  simp only [Option.bind_none, beyond] at hroot
  cases later with
  | none =>
    cases hroot
    exact ⟨rfl, rfl⟩
  | some later => cases hroot

end Tallied

/-- A log accounts for what became of the nodes on some branches. -/
structure Tally (l later : Layout) (visits : List Path) : Prop where
  proper : [] ∉ visits
  branch : ∀ branch, Tallied (l branch) (later branch) (below branch visits)

namespace Tally

variable {l m later later' : Layout} {visits others : List Path}

theorem refl (l : Layout) : Tally l l [] := ⟨List.not_mem_nil, fun branch => .refl (l branch)⟩

theorem trans (h : Tally l later visits) (hlater : Tally later later' others) : Tally l later' (visits ++ others) where
  proper := fun hmem => (List.mem_append.mp hmem).elim h.proper hlater.proper
  branch := fun branch => by
    rw [below_append]
    exact (h.branch branch).trans (hlater.branch branch)

/-- Branches side by side. -/
theorem or (h : Tally l later visits) (hother : Tally m later' others) (hapart : l.Apart m) :
    Tally (l.or m) (later.or later') (visits ++ others) where
  proper := fun hmem => (List.mem_append.mp hmem).elim h.proper hother.proper
  branch := fun branch => by
    have hl := h.branch branch
    have hm := hother.branch branch
    rw [below_append]
    unfold Layout.or
    rcases hapart branch with hnone | hnone
    · rw [hnone] at hl ⊢
      obtain ⟨hlater, hvisits⟩ := hl.eq_of_none
      rw [hlater, hvisits, Option.none_or, Option.none_or]
      exact hm
    · rw [hnone] at hm ⊢
      obtain ⟨hlater, hvisits⟩ := hm.eq_of_none
      rw [hlater, hvisits, Option.or_none, Option.or_none, List.append_nil]
      exact hl

/-- The node on one of the branches. -/
theorem set {slot : Slot} {first place : Nat} {nodes : List Node} {node later : Node}
    (hplace : nodes[place]? = some node) (h : Tallied (some node) (some later) visits) :
    Tally (.listed slot first nodes) (.listed slot first (nodes.set place later))
      (visits.map (⟨slot, first + place⟩ :: ·)) where
  proper := by simp
  branch := by
    intro branch
    by_cases hbranch : branch = ⟨slot, first + place⟩
    · subst hbranch
      have hlt : place < nodes.length := (List.getElem?_eq_some_iff.mp hplace).1
      have hbefore : Layout.listed slot first nodes ⟨slot, first + place⟩ = some node := by
        simpa [Layout.listed] using hplace
      rw [below_on, hbefore, Layout.listed_set_self slot hlt]
      exact h
    · rw [below_off (Ne.symm hbranch), Layout.listed_set_of_ne hbranch]
      exact .refl _

/-- The nodes on all paths in a pattern. -/
theorem among {nodes others : List Node} (h : Tally (.listed .value 0 nodes) (.listed .value 0 others) visits)
    (path : Path) (hpath : path ≠ []) :
    Accounted (Node.among? nodes path) (Node.among? others path) (beyond path visits) := by
  cases path with
  | nil => exact absurd rfl hpath
  | cons branch path => exact h.branch branch path

end Tally

/-- A node by itself and by its branches. -/
theorem tallied_of_tally {node later : Node} {visits : List Path} (hown : Counted node later ([] :: visits))
    (h : Tally node.layout later.layout visits) : Tallied (some node) (some later) ([] :: visits) := by
  intro path
  cases path with
  | nil => exact .present hown
  | cons branch path => exact h.branch branch path

end NumberedMelody
