/-
  NumberedMelody/Proofs/Evaluation/CyclicZip.lean
  ===============================================
  **Interleaving two lists.**  The elements of both lists are run in turn, the
  shorter list over and over, and they are run in the context of the operation:
  the marks in front of a list, which hold for its elements wherever else the
  list is evaluated, are not applied.  So the events of lists of pitches stand at
  their places, but they are those that the lists have on their own only as far
  as their marks change nothing (`zip_interleaves`).
-/
import NumberedMelody.Proofs.Evaluation.EagerVariables
import NumberedMelody.Proofs.Evaluation.Joining
import NumberedMelody.Proofs.Grammar.ListOperations

namespace NumberedMelody

open NumberedMelody.Random (Source)
open Node (withoutBlanks)

/-! ### Places -/

namespace ListArithmetic

variable {α β : Type}

/-- Of pairs in a row, the first halves stand at even places and the second halves at odd ones. -/
theorem getElem?_pairs (first second : Nat → α) {n i : Nat} (h : i < n) :
    ((List.range n).flatMap fun i => [first i, second i])[2 * i]? = some (first i) ∧
      ((List.range n).flatMap fun i => [first i, second i])[2 * i + 1]? = some (second i) := by
  induction n with
  | zero => exact absurd h (Nat.not_lt_zero i)
  | succ n ih =>
    have hlength : ((List.range n).flatMap fun i => [first i, second i]).length = 2 * n := by
      simp [List.length_flatMap, Nat.mul_comm]
    rw [List.range_succ, List.flatMap_append]
    rcases Nat.lt_succ_iff_lt_or_eq.mp h with hlt | rfl
    · obtain ⟨heven, hodd⟩ := ih hlt
      rw [List.getElem?_append_left (by omega), List.getElem?_append_left (by omega)]
      exact ⟨heven, hodd⟩
    · rw [List.getElem?_append_right (by omega), List.getElem?_append_right (by omega), hlength]
      simp

/-- A list that is repeated without end. -/
theorem exists_cyclic {xs : List α} (h : xs ≠ []) : ∃ cyclic : Nat → α, ∀ i, xs[i % xs.length]? = some (cyclic i) := by
  have hlt : ∀ i, i % xs.length < xs.length := fun i => Nat.mod_lt i (List.length_pos_iff.mpr h)
  exact ⟨fun i => xs.get ⟨i % xs.length, hlt i⟩, fun i => List.getElem?_eq_getElem (hlt i)⟩

/-- The places of two lists that are interleaved. -/
theorem interleave_places {left right : List α} (hleft : left ≠ []) (hright : right ≠ []) :
    (interleave left right).length = 2 * max left.length right.length ∧
      ∀ i < max left.length right.length,
        (interleave left right)[2 * i]? = left[i % left.length]? ∧
          (interleave left right)[2 * i + 1]? = right[i % right.length]? := by
  obtain ⟨first, hfirst⟩ := exists_cyclic hleft
  obtain ⟨second, hsecond⟩ := exists_cyclic hright
  have hpairs : interleave left right =
      (List.range (max left.length right.length)).flatMap fun i => [first i, second i] := by
    simp [interleave, hleft, hright, hfirst, hsecond]
  rw [hpairs]
  constructor
  · simp [List.length_flatMap, Nat.mul_comm]
  · intro i hi
    rw [hfirst, hsecond]
    exact getElem?_pairs first second hi

theorem map_interleave (f : α → β) (left right : List α) :
    interleave (left.map f) (right.map f) = (interleave left right).map f := by
  by_cases hleft : left = []
  · simp [interleave, hleft]
  · by_cases hright : right = []
    · simp [interleave, hleft, hright]
    · simp [interleave, hleft, hright, List.map_flatMap, Option.toList_map]

end ListArithmetic

/-! ### Lists of pitches -/

/-- The pitch that a node is, if it is one. -/
def Node.pitch? : Node → Option Pitch
  | .event (.pitch p) => some p
  | _ => none

/-- The elements of a list in round brackets, if they all are pitches. -/
def Node.pitches? : Node → Option (List Pitch)
  | .sequence _ _ true values => (withoutBlanks values).mapM pitch?
  | _ => none

/-- Pitches as nodes. -/
def pitchNodes (pitches : List Pitch) : List Node := (pitches.map .pitch).map .event

theorem eq_pitchNodes_of_mapM {nodes : List Node} {pitches : List Pitch} (h : nodes.mapM Node.pitch? = some pitches) :
    nodes = pitchNodes pitches := by
  induction nodes generalizing pitches with
  | nil =>
    obtain rfl := Option.some.inj h
    rfl
  | cons node more ih =>
    rw [List.mapM_cons] at h
    obtain ⟨p, hp, h⟩ := Option.bind_eq_some_iff.mp h
    obtain ⟨others, hothers, h⟩ := Option.bind_eq_some_iff.mp h
    obtain rfl := Option.some.inj h
    rw [ih hothers]
    unfold Node.pitch? at hp
    split at hp
    · obtain rfl := Option.some.inj hp
      rfl
    · cases hp

theorem Node.isList_of_pitches? {node : Node} {pitches : List Pitch} (h : node.pitches? = some pitches) :
    node.isList = true := by
  unfold pitches? at h
  split at h
  · rfl
  · cases h

theorem Node.eq_sequence_of_pitches? {node : Node} {pitches : List Pitch} (h : node.pitches? = some pitches) :
    ∃ text values, node = .sequence text node.listOverrides true values ∧ withoutBlanks values = pitchNodes pitches := by
  unfold pitches? at h
  split at h
  · exact ⟨_, _, rfl, eq_pitchNodes_of_mapM h⟩
  · cases h

/-- What pitches sound as against options. -/
def soundingAs (options : Options) (pitches : List Pitch) : List Event :=
  pitches.map fun p => .pitch (p.resolve options)

variable {node : Node} {pitches : List Pitch}

theorem inOrder_pitches (pitches : List Pitch) (context : Context) (source : Source) :
    Realizer.inOrder realize (pitchNodes pitches) context source =
      ⟨pitchNodes pitches, context, source, .ok ((soundingAs context.options pitches).map .ready)⟩ := by
  rw [realize, nestingLimit_eq_succ, pitchNodes, Realizer.inOrder_events]
  simp [soundingAs, Event.against, Function.comp_def]

/-- A list of pitches on its own: they sound under the marks of the list. -/
theorem evaluate_pitches (h : node.pitches? = some pitches) (context : Context) (source : Source) :
    (evaluate [node] context source).result = .ok (soundingAs (context.inside node.listOverrides).options pitches) := by
  obtain ⟨text, values, hnode, hvalues⟩ := node.eq_sequence_of_pitches? h
  generalize node.listOverrides = marks at hnode ⊢
  rw [hnode]
  have hinside := inOrder_withoutBlanks values (context.inside marks) source
  rw [hvalues, inOrder_pitches] at hinside
  have hresult : (Realizer.inOrder realize values (context.inside marks) source).result =
      .ok ((soundingAs (context.inside marks).options pitches).map .ready) := congrArg Run.result hinside
  simp only [evaluate, Realizer.inOrder, realize_sequence, Run.andThen, Run.withTree, Run.withResult, Run.back, hresult,
    Except.bind, List.append_nil, assignDurations_ready]

theorem length_soundingAs (options : Options) (pitches : List Pitch) :
    (soundingAs options pitches).length = pitches.length := List.length_map _

theorem elements_of_pitches (h : node.pitches? = some pitches) :
    node.elements = pitches.map fun p => .event (.pitch p) := by
  obtain ⟨text, values, hnode, hvalues⟩ := node.eq_sequence_of_pitches? h
  rw [hnode]
  exact hvalues.trans (List.map_map ..)

/-- Interleaved, the pitches sound under no marks but those of the context. -/
theorem evaluate_zip {left right : Node} {ps qs : List Pitch} (hleft : left.pitches? = some ps)
    (hright : right.pitches? = some qs) (text : String) (context : Context) (source : Source) :
    (evaluate [.operations text left [.binary .zip (some right)]] context source).result =
      .ok (soundingAs context.options (ListArithmetic.interleave ps qs)) := by
  have hnodes : ListArithmetic.interleave left.elements right.elements =
      pitchNodes (ListArithmetic.interleave ps qs) := by
    rw [elements_of_pitches hleft, elements_of_pitches hright, ListArithmetic.map_interleave, pitchNodes, List.map_map]
    rfl
  simp only [evaluate, Realizer.inOrder, realize_operations, Realizer.operations, Realizer.zipped, Option.map_some,
    Option.getD_some, hnodes, Realizer.eventsInOrder, inOrder_pitches, Realizer.operationsOn, Run.andThen, Run.withTree,
    Run.withResult, Run.back, Except.bind, List.append_nil, assignDurations_ready]

/-! ### Lists interleaved -/

/-- Two lists of events in turn, the shorter one over and over. -/
structure Interleaves (events lefts rights : List Event) : Prop where
  length : events.length = 2 * max lefts.length rights.length
  places : ∀ i < max lefts.length rights.length,
    events[2 * i]? = lefts[i % lefts.length]? ∧ events[2 * i + 1]? = rights[i % rights.length]?

theorem Interleaves.of_pitches {ps qs : List Pitch} (hps : ps ≠ []) (hqs : qs ≠ []) (options : Options) :
    Interleaves (soundingAs options (ListArithmetic.interleave ps qs)) (soundingAs options ps)
      (soundingAs options qs) := by
  have hmap : soundingAs options (ListArithmetic.interleave ps qs) =
      ListArithmetic.interleave (soundingAs options ps) (soundingAs options qs) :=
    (ListArithmetic.map_interleave ..).symm
  have hlefts : soundingAs options ps ≠ [] := by simpa [soundingAs] using hps
  have hrights : soundingAs options qs ≠ [] := by simpa [soundingAs] using hqs
  obtain ⟨hlength, hplaces⟩ := ListArithmetic.interleave_places hlefts hrights
  rw [hmap]
  exact ⟨hlength, hplaces⟩

/-- Events say which lists they interleave, if they are told the lengths. -/
theorem Interleaves.eq {events lefts rights lefts' rights' : List Event} (h : Interleaves events lefts rights)
    (h' : Interleaves events lefts' rights') (hlefts : lefts.length = lefts'.length)
    (hrights : rights.length = rights'.length) : lefts = lefts' ∧ rights = rights' := by
  constructor
  · apply List.ext_getElem? fun i => ?_
    by_cases hi : i < lefts.length
    · have hplace := (h.places i (by omega)).1.symm.trans (h'.places i (by omega)).1
      rwa [← hlefts, Nat.mod_eq_of_lt hi] at hplace
    · rw [List.getElem?_eq_none (by omega), List.getElem?_eq_none (by omega)]
  · apply List.ext_getElem? fun i => ?_
    by_cases hi : i < rights.length
    · have hplace := (h.places i (by omega)).2.symm.trans (h'.places i (by omega)).2
      rwa [← hrights, Nat.mod_eq_of_lt hi] at hplace
    · rw [List.getElem?_eq_none (by omega), List.getElem?_eq_none (by omega)]

/-- **Interleaving two lists.**  Two lists of pitches with the sign of
    interleaving between them yield the pitches in turn, the shorter list over
    and over, under no marks but those of the context.  These are the events that
    the lists have on their own exactly if the marks in front of the lists change
    none of them, and so always if there are no marks. -/
theorem zip_interleaves {a b : String} {left right : Node} {ps qs : List Pitch} (ha : readPattern a = .ok [left])
    (hb : readPattern b = .ok [right]) (hleft : left.pitches? = some ps) (hright : right.pitches? = some qs)
    (hps : ps ≠ []) (hqs : qs ≠ []) :
    ∃ nodes, readPattern (a ++ "<>" ++ b) = .ok nodes ∧ ∀ context source, ∃ lefts rights events,
      (evaluate [left] context source).result = .ok lefts ∧ lefts.length = ps.length ∧
      (evaluate [right] context source).result = .ok rights ∧ rights.length = qs.length ∧
      (evaluate nodes context source).result = .ok events ∧ events.length = 2 * max ps.length qs.length ∧
      Interleaves events (soundingAs context.options ps) (soundingAs context.options qs) ∧
      (Interleaves events lefts rights ↔
        lefts = soundingAs context.options ps ∧ rights = soundingAs context.options qs) ∧
      (left.listOverrides = {} → right.listOverrides = {} → Interleaves events lefts rights) := by
  have hread : readPattern (a ++ "<>" ++ b) = .ok [.operations (a ++ ("<>" ++ b)) left [.binary .zip (some right)]] :=
    (congrArg readPattern (String.append_assoc ..)).trans
      (readPattern_zip ha hb (Node.isList_of_pitches? hleft) (Node.isList_of_pitches? hright))
  refine ⟨_, hread, ?_⟩
  intro context source
  have hbare := Interleaves.of_pitches hps hqs context.options
  refine ⟨_, _, _, evaluate_pitches hleft context source, length_soundingAs .., evaluate_pitches hright context source,
    length_soundingAs .., evaluate_zip hleft hright _ context source, ?_, hbare, ?_, ?_⟩
  · simpa [length_soundingAs] using hbare.length
  · constructor
    · intro halone
      exact halone.eq hbare (by simp [length_soundingAs]) (by simp [length_soundingAs])
    · rintro ⟨hlefts, hrights⟩
      rwa [hlefts, hrights]
  · intro hmarks hmarks'
    rw [hmarks, hmarks']
    exact hbare

/-- One list of so many pitches. -/
def isPitchListOf (size : Nat) : List Node → Bool
  | [node] => node.pitches?.any (·.length = size)
  | _ => false

theorem exists_of_isPitchListOf {text : String} {size : Nat}
    (h : (readPattern text).toOption.any (isPitchListOf size) = true) :
    ∃ node pitches, readPattern text = .ok [node] ∧ node.pitches? = some pitches ∧ pitches.length = size := by
  obtain ⟨nodes, hread, hcheck⟩ := eq_ok_of_any h
  unfold isPitchListOf at hcheck
  split at hcheck
  · next node =>
    cases hpitches : node.pitches? with
    | none =>
      rw [hpitches] at hcheck
      cases hcheck
    | some pitches =>
      rw [hpitches] at hcheck
      exact ⟨node, pitches, hread, hpitches, of_decide_eq_true hcheck⟩
  · cases hcheck

/-- Two pitches an octave up and one without marks. -/
theorem octave_and_bare_list_interleave :
    ∃ left right nodes events, readPattern "^(0 1)" = .ok [left] ∧ readPattern "(2)" = .ok [right] ∧
      readPattern ("^(0 1)" ++ "<>" ++ "(2)") = .ok nodes ∧
      (evaluate nodes (.ofOptions {}) (.ofSeed 0)).result = .ok events ∧ events.length = 4 := by
  have hcheck : (readPattern "^(0 1)").toOption.any (isPitchListOf 2) = true := by decide +kernel
  have hcheck' : (readPattern "(2)").toOption.any (isPitchListOf 1) = true := by decide +kernel
  obtain ⟨left, ps, ha, hleft, hlefts⟩ := exists_of_isPitchListOf hcheck
  obtain ⟨right, qs, hb, hright, hrights⟩ := exists_of_isPitchListOf hcheck'
  have hps : ps ≠ [] := List.length_pos_iff.mp (by omega)
  have hqs : qs ≠ [] := List.length_pos_iff.mp (by omega)
  obtain ⟨nodes, hread, hzip⟩ := zip_interleaves ha hb hleft hright hps hqs
  obtain ⟨_, _, events, -, -, -, -, hevents, hlength, -⟩ := hzip (.ofOptions {}) (.ofSeed 0)
  rw [hlefts, hrights] at hlength
  exact ⟨left, right, nodes, events, ha, hb, hread, hevents, hlength⟩

/-- An octave in front of a list is heard of the list on its own, but not of the
    list interleaved. -/
theorem zip_drops_octave :
    ∃ left nodes lefts events, readPattern "^(0)" = .ok [left] ∧ readPattern ("^(0)" ++ "<>" ++ "(1)") = .ok nodes ∧
      (evaluate [left] (.ofOptions {}) (.ofSeed 0)).result = .ok lefts ∧
      (evaluate nodes (.ofOptions {}) (.ofSeed 0)).result = .ok events ∧ events[0]? ≠ lefts[0]? := by
  have hlist : (readPattern "^(0)").toOption.any (isPitchListOf 1) = true := by decide +kernel
  have halone : (readPattern "^(0)").toOption.any (startsWith {} [some 72]) = true := by decide +kernel
  have hzip : (readPattern ("^(0)" ++ "<>" ++ "(1)")).toOption.any (startsWith {} [some 60]) = true := by decide +kernel
  obtain ⟨left, -, hleft, -, -⟩ := exists_of_isPitchListOf hlist
  obtain ⟨nodes', lefts, first, hleft', hlefts, hfirst, hhigh⟩ := exists_of_startsWith halone
  obtain ⟨nodes, events, e, hnodes, hevents, he, hlow⟩ := exists_of_startsWith hzip
  obtain rfl := Except.ok.inj (hleft.symm.trans hleft')
  refine ⟨left, nodes, lefts, events, hleft, hnodes, hlefts, hevents, ?_⟩
  intro hsame
  rw [he, hfirst] at hsame
  obtain rfl := Option.some.inj hsame
  rw [hlow] at hhigh
  exact absurd hhigh (by decide)

end NumberedMelody
