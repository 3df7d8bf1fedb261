/-
  NumberedMelody/Proofs/Evaluation/Chaining.lean
  ==============================================
  **A chain of operations is done from the left.**  Operations in front of
  others yield events, and the others go on from these (`operationsOn_append`).
  A list around the first operations runs them in a scope of its own and shares
  out durations, and neither changes the events (`events_bracketed`).  So a chain
  and the same chain with brackets around all operations but the last are one
  run with two trees (`realize_leftGrouped`), and remain so however often they
  are evaluated (`chain_folds_left`).

  Interleaving stands apart: it takes the elements of a list as they are
  written, and brackets make one element of many.
-/
import NumberedMelody.Proofs.Evaluation.Brackets

namespace NumberedMelody

open NumberedMelody.Random (Source)

/-- The operation interleaves two lists. -/
def Operation.isZip {ν : Type} : Operation ν → Bool
  | .binary .zip _ => true
  | _ => false

/-- If it is not so that nothing is interleaved first, something is. -/
theorem Operation.exists_zip_of_not {ν : Type} {steps : List (Operation ν)}
    (h : ¬ ∀ step ∈ steps.head?, step.isZip = false) : ∃ right more, steps = .binary .zip right :: more := by
  match steps with
  | .binary .zip right :: more => exact ⟨right, more, rfl⟩
  | [] => exact absurd (fun _ hstep => nomatch hstep) h
  | .map _ :: _ | .binary .vertical _ :: _ | .binary .horizontal _ :: _ | .binary (.arithmetic _) _ :: _ =>
    exact absurd (by rintro _ ⟨⟩; rfl) h

namespace Realizer

open Operation (exists_zip_of_not)

variable (realize : Realizer)

/-! ### Operations in front of others -/

/-- **Operations in front of others are done first**, and the others go on from
    the events that they yield. -/
theorem operationsOn_append (steps others : List (Operation Node)) :
    ∀ (left : List Event) (context : Context) (source : Source),
      operationsOn realize left (steps ++ others) context source =
        ((operationsOn realize left steps context source).andThen others fun events context source =>
          operationsOn realize events others context source).withTree
            fun (steps, others) => steps ++ others := by
  induction steps with
  | nil =>
    intro left context source
    rfl
  | cons step more ih =>
    intro left context source
    rw [List.cons_append, operationsOn, operationsOn]
    cases hstep : (operation realize left step context source).result with
    | error failure => simp only [Run.andThen, Run.withTree, hstep, List.cons_append]
    | ok events =>
      simp only [Run.andThen, Run.withTree, hstep, ih]
      cases (operationsOn realize events more _ _).result <;> rfl

/-- The events of a list and operations on it, with the list and the operations
    that are left. -/
def chained (left : Node) (steps : List (Operation Node)) (context : Context) (source : Source) :
    Run (Node × List (Operation Node)) (List Event) :=
  match steps with
  | .binary .zip right :: more =>
    ((zipped realize left.elements right context source).andThen more fun events context source =>
        operationsOn realize events more context source).withTree fun (_, more) => (left, .binary .zip right :: more)
  | steps =>
    (events realize left context source).andThen steps fun events context source =>
      operationsOn realize events steps context source

theorem operations_eq_chained (text : String) (left : Node) (steps : List (Operation Node)) (context : Context)
    (source : Source) :
    operations realize text left steps context source =
      ((chained realize left steps context source).withTree fun (left, steps) => .operations text left steps).withResult
        fun events => .ok (events.map .ready) := by
  match steps with
  | [] | .map _ :: _ | .binary .zip _ :: _ | .binary .vertical _ :: _ | .binary .horizontal _ :: _
  | .binary (.arithmetic _) _ :: _ => rfl

/-- Unless the first operation interleaves, it goes on from the events of the list. -/
theorem chained_of_not_zip {steps : List (Operation Node)} (h : ∀ step ∈ steps.head?, step.isZip = false)
    (left : Node) (context : Context) (source : Source) :
    chained realize left steps context source =
      (events realize left context source).andThen steps fun events context source =>
        operationsOn realize events steps context source := by
  unfold chained
  split
  · next right more => cases h _ rfl
  · rfl

/-- **A chain goes on from the events of its first operations.** -/
theorem chained_append {last : Operation Node} (hlast : last.isZip = false) (left : Node)
    (steps : List (Operation Node)) (context : Context) (source : Source) :
    chained realize left (steps ++ [last]) context source =
      ((chained realize left steps context source).andThen [last] fun events context source =>
        operationsOn realize events [last] context source).withTree
          fun ((left, steps), last) => (left, steps ++ last) := by
  by_cases hzip : ∀ step ∈ steps.head?, step.isZip = false
  · have hzip' : ∀ step ∈ (steps ++ [last]).head?, step.isZip = false := by
      cases steps with
      | nil => simpa using hlast
      | cons step more => simpa using hzip
    rw [chained_of_not_zip realize hzip, chained_of_not_zip realize hzip']
    cases hleft : (events realize left context source).result with
    | error failure => simp only [Run.andThen, Run.withTree, hleft]
    | ok events =>
      simp only [Run.andThen, Run.withTree, hleft, operationsOn_append realize steps]
      cases (operationsOn realize events steps _ _).result <;> rfl
  · obtain ⟨right, more, rfl⟩ := exists_zip_of_not hzip
    rw [List.cons_append]
    simp only [chained]
    cases hzipped : (zipped realize left.elements right context source).result with
    | error failure => simp only [Run.andThen, Run.withTree, hzipped, List.cons_append]
    | ok events =>
      simp only [Run.andThen, Run.withTree, hzipped, operationsOn_append realize more]
      cases (operationsOn realize events more _ _).result <;> rfl

/-! ### Brackets around operations -/

theorem chained_context (left : Node) (steps : List (Operation Node)) (context : Context) (source : Source) :
    (chained realize left steps context source).context = context := by
  by_cases hzip : ∀ step ∈ steps.head?, step.isZip = false
  · rw [chained_of_not_zip realize hzip]
    exact Run.andThen_context rfl steps (operationsOn_context realize context steps)
  · obtain ⟨right, more, rfl⟩ := exists_zip_of_not hzip
    have hzipped : (zipped realize left.elements right context source).context = context := rfl
    exact Run.andThen_context hzipped more (operationsOn_context realize context more)

end Realizer

open Realizer

variable (context : Context) (source : Source)

theorem realize_eq_chained (text : String) (left : Node) (steps : List (Operation Node)) :
    realize (.operations text left steps) context source =
      ((chained realize left steps context source).withTree fun (left, steps) => .operations text left steps).withResult
        fun events => .ok (events.map .ready) := by
  rw [realize_eq_level]
  exact operations_eq_chained realize text left steps context source

/-- **A list around operations changes nothing about their events.**  It runs them
    in a scope of its own, which they leave as it was, and their events are ready,
    so that there are no durations to share out. -/
theorem events_bracketed (bracketed inner : String) (left : Node) (steps : List (Operation Node)) :
    events realize (.sequence bracketed {} true [.operations inner left steps]) context source =
      (chained realize left steps context source).withTree fun (left, steps) =>
        .sequence bracketed {} true [.operations inner left steps] := by
  have hscope : context.inside {} = context := rfl
  have hcontext := chained_context realize left steps context source
  unfold events
  rw [realize_sequence, hscope, inOrder, realize_eq_chained]
  cases hresult : (chained realize left steps context source).result with
  | error failure => simp only [Run.andThen, Run.withTree, Run.withResult, Run.back, hresult, hcontext, Except.bind]
  | ok events =>
    simp only [Run.andThen, Run.withTree, Run.withResult, Run.back, hresult, hcontext, Except.bind, inOrder,
      List.append_nil, assignDurations_ready]

/-! ### Runs over different trees -/

/-- Two runs leave the same context and source and yield the same, and their
    trees are related. -/
structure Run.Regroups {σ σ' ρ : Type} (T : σ → σ' → Prop) (x : Run σ ρ) (y : Run σ' ρ) : Prop where
  tree : T x.tree y.tree
  context : y.context = x.context
  source : y.source = x.source
  result : y.result = x.result

namespace Run.Regroups

variable {σ σ' υ υ' ρ ρ' : Type} {T : σ → σ' → Prop} {x : Run σ ρ} {y : Run σ' ρ}

theorem withTree (h : x.Regroups T y) {U : υ → υ' → Prop} {f : σ → υ} {g : σ' → υ'}
    (htree : ∀ tree tree', T tree tree' → U (f tree) (g tree')) : (x.withTree f).Regroups U (y.withTree g) where
  tree := htree _ _ h.tree
  context := h.context
  source := h.source
  result := h.result

theorem withResult (h : x.Regroups T y) (f : ρ → Except Failure ρ') : (x.withResult f).Regroups T (y.withResult f) where
  tree := h.tree
  context := h.context
  source := h.source
  result := congrArg (·.bind f) h.result

theorem back (h : x.Regroups T y) (context : Context) : (x.back context).Regroups T (y.back context) where
  tree := h.tree
  context := rfl
  source := h.source
  result := h.result

theorem andThen (h : x.Regroups T y) {U : υ → υ' → Prop} {untouched : υ} {untouched' : υ'}
    (huntouched : U untouched untouched') {next : ρ → Context → Source → Run υ ρ'}
    {next' : ρ → Context → Source → Run υ' ρ'}
    (hnext : ∀ value context source, (next value context source).Regroups U (next' value context source)) :
    (x.andThen untouched next).Regroups (fun pair pair' => T pair.1 pair'.1 ∧ U pair.2 pair'.2)
      (y.andThen untouched' next') := by
  unfold Run.andThen
  rw [h.result]
  cases x.result with
  | error failure => exact ⟨⟨h.tree, huntouched⟩, h.context, h.source, rfl⟩
  | ok value =>
    have hsecond := hnext value x.context x.source
    simp only [h.context, h.source]
    exact hsecond.withTree fun _ _ hother => ⟨h.tree, hother⟩

theorem onward (h : x.Regroups T y) {next : Run σ ρ → ρ → Run σ ρ} {next' : Run σ' ρ → ρ → Run σ' ρ}
    (hnext : ∀ value, (next x value).Regroups T (next' y value)) : (x.onward next).Regroups T (y.onward next') := by
  unfold Run.onward
  rw [h.result]
  cases x.result with
  | error failure => exact h
  | ok value => exact hnext value

end Run.Regroups

/-! ### Chains and grouped chains -/

theorem Run.withTree_andThen {σ σ' σ'' ρ ρ' : Type} (first : Run σ ρ) (f : σ → σ'') (untouched : σ')
    (next : ρ → Context → Source → Run σ' ρ') :
    (first.withTree f).andThen untouched next =
      (first.andThen untouched next).withTree fun (tree, other) => (f tree, other) := by
  unfold Run.andThen Run.withTree
  cases first.result <;> rfl

/-- One node is a chain of operations, and the other the same chain with brackets
    around all operations but the last, which does not interleave. -/
inductive Node.LeftGrouped : Node → Node → Prop where
  | intro {last : Operation Node} (hlast : last.isZip = false) (text inner bracketed outer : String) (left : Node)
    (steps : List (Operation Node)) :
    LeftGrouped (.operations text left (steps ++ [last]))
      (.operations outer (.sequence bracketed {} true [.operations inner left steps]) [last])

open Node (LeftGrouped)

/-- An operation interleaves behind a run if it did before. -/
theorem isZip_operation (r : Realizer) (left : List Event) (step : Operation Node) :
    (operation r left step context source).tree.isZip = step.isZip := by
  cases step with
  | map expr => rfl
  | binary op right => cases op <;> rfl

theorem tree_operationsOn_singleton (r : Realizer) (left : List Event) (step : Operation Node) :
    (operationsOn r left [step] context source).tree = [(operation r left step context source).tree] := by
  simp only [operationsOn, Run.andThen, Run.withTree]
  cases (operation r left step context source).result <;> rfl

/-- **A chain and the chain with brackets are one run.**  The events of all
    operations but the last are the same, and the last goes on from these. -/
theorem realize_leftGrouped {chain grouped : Node} (h : LeftGrouped chain grouped) :
    (realize chain context source).Regroups LeftGrouped (realize grouped context source) := by
  obtain @⟨last, hlast, text, inner, bracketed, outer, left, steps⟩ := h
  let whole := (chained realize left steps context source).andThen [last] fun events context source =>
    operationsOn realize events [last] context source
  have hchain : realize (.operations text left (steps ++ [last])) context source =
      (whole.withTree fun ((left, steps), last) => .operations text left (steps ++ last)).withResult
        fun events => .ok (events.map .ready) := by
    rw [realize_eq_chained, chained_append realize hlast]
    rfl
  have hgrouped : realize (.operations outer (.sequence bracketed {} true [.operations inner left steps]) [last])
      context source =
        (whole.withTree fun ((left, steps), last) =>
          .operations outer (.sequence bracketed {} true [.operations inner left steps]) last).withResult
            fun events => .ok (events.map .ready) := by
    rw [realize_eq_chained, chained_of_not_zip realize (by simpa using hlast), events_bracketed, Run.withTree_andThen]
    rfl
  obtain ⟨last', hwhole, hlast'⟩ : ∃ last', whole.tree.2 = [last'] ∧ last'.isZip = false := by
    simp only [whole, Run.andThen]
    cases (chained realize left steps context source).result with
    | error failure => exact ⟨last, rfl, hlast⟩
    | ok events => exact ⟨_, tree_operationsOn_singleton .., (isZip_operation ..).trans hlast⟩
  rw [hchain, hgrouped]
  refine ⟨?_, rfl, rfl, rfl⟩
  show LeftGrouped (.operations text whole.tree.1.1 (whole.tree.1.2 ++ whole.tree.2))
    (.operations outer (.sequence bracketed {} true [.operations inner whole.tree.1.1 whole.tree.1.2]) whole.tree.2)
  rw [hwhole]
  exact .intro hlast' ..

/-! ### Among other nodes, and over and over -/

/-- The same node, or a chain and the chain with brackets. -/
def Node.Regrouped (node node' : Node) : Prop := node = node' ∨ LeftGrouped node node'

open Node (Regrouped)

theorem Node.Regrouped.refl_all (nodes : List Node) : List.Forall₂ Regrouped nodes nodes :=
  List.forall₂_same.mpr fun _ _ => .inl rfl

theorem realize_regrouped {node node' : Node} (h : Regrouped node node') :
    (realize node context source).Regroups Regrouped (realize node' context source) := by
  rcases h with rfl | hgrouped
  · exact ⟨.inl rfl, rfl, rfl, rfl⟩
  · obtain ⟨htree, hcontext, hsource, hresult⟩ := realize_leftGrouped context source hgrouped
    exact ⟨.inr htree, hcontext, hsource, hresult⟩

/-- Brackets around the first operations of some chains make no difference to
    what all nodes yield in order. -/
theorem inOrder_regrouped {nodes nodes' : List Node} (h : List.Forall₂ Regrouped nodes nodes') :
    ∀ (context : Context) (source : Source),
      (inOrder realize nodes context source).Regroups (List.Forall₂ Regrouped)
        (inOrder realize nodes' context source) := by
  induction h with
  | nil =>
    intro context source
    exact ⟨.nil, rfl, rfl, rfl⟩
  | cons hnode hmore ih =>
    intro context source
    refine ((realize_regrouped context source hnode).andThen hmore fun steps context source =>
      (ih context source).withResult _).withTree ?_
    rintro _ _ ⟨hnode, hmore⟩
    exact .cons hnode hmore

theorem passes_regrouped (prepare : Source → Source) (context : Context) (times : Nat) :
    ∀ {nodes nodes' : List Node} (source : Source), List.Forall₂ Regrouped nodes nodes' →
      (passes realize prepare context times nodes source).Regroups (List.Forall₂ Regrouped)
        (passes realize prepare context times nodes' source) := by
  induction times with
  | zero =>
    intro nodes nodes' source h
    exact ⟨h, rfl, rfl, rfl⟩
  | succ times ih =>
    intro nodes nodes' source h
    have hpass := (inOrder_regrouped h context (prepare source)).back context
    rw [passes_succ, passes_succ]
    refine hpass.onward fun steps => ?_
    rw [hpass.source]
    exact (ih _ hpass.tree).withResult _

/-- **A chain of operations is done from the left.**  It comes to the same as the
    last operation on a list that holds the chain without it, whatever the list in
    front and the operations are, in any context and with any source: the same
    events or the same failure, from the same draws, with nothing else left in the
    context.  Only the last operation must not interleave.  The trees that are left
    are again a chain and the same chain with brackets, so that this goes on
    however often they are evaluated, and whatever stands around them. -/
theorem chain_folds_left {last : Operation Node} (hlast : last.isZip = false) (text inner bracketed outer : String)
    (left : Node) (steps : List (Operation Node)) (context : Context) (source : Source) :
    let chain := Node.operations text left (steps ++ [last])
    let grouped := Node.operations outer (.sequence bracketed {} true [.operations inner left steps]) [last]
    (realize chain context source).Regroups LeftGrouped (realize grouped context source) ∧
      (evaluate [chain] context source).Regroups (List.Forall₂ Regrouped) (evaluate [grouped] context source) ∧
      ∀ (times : Nat) (before after : List Node),
        (passes realize id context times (before ++ chain :: after) source).Regroups (List.Forall₂ Regrouped)
          (passes realize id context times (before ++ grouped :: after) source) := by
  intro chain grouped
  have hgrouped : LeftGrouped chain grouped := .intro hlast text inner bracketed outer left steps
  refine ⟨realize_leftGrouped context source hgrouped, ?_, ?_⟩
  · exact (inOrder_regrouped (.cons (.inr hgrouped) .nil) context source).withResult assignDurations
  · intro times before after
    have hnodes : List.Forall₂ Regrouped (before ++ chain :: after) (before ++ grouped :: after) :=
      List.rel_append (Regrouped.refl_all before) (.cons (.inr hgrouped) (Regrouped.refl_all after))
    exact passes_regrouped id context times source hnodes

/-- A sum with a cycle and then a map, over a list that draws at random.  Three
    passes over the chain and over the chain with brackets yield the same. -/
theorem sum_and_map_fold_left :
    let degree (n : Int) : Node := .event (.pitch (.ofDegree n))
    let left : Node := .sequence "(0 (1,6))" {} true [degree 0, .randomInteger "(1,6)" {} 1 6]
    let sum : Operation Node := .binary (.arithmetic .add) (some (.cycle "<1 2>" [degree 1, degree 2] 0))
    let double : Operation Node := .map (.binary .multiply .x (.number 2.0))
    let chain : Node := .operations "(0 (1,6))+<1 2>{x*2}" left ([sum] ++ [double])
    let grouped : Node := .operations "((0 (1,6))+<1 2>){x*2}"
      (.sequence "((0 (1,6))+<1 2>)" {} true [.operations "(0 (1,6))+<1 2>" left [sum]]) [double]
    double.isZip = false ∧
      ∃ steps, (passes realize id (.ofOptions {}) 3 [chain] (.ofSeed 0)).result = .ok steps ∧ steps.length = 6 ∧
        (passes realize id (.ofOptions {}) 3 [grouped] (.ofSeed 0)).result = .ok steps ∧
        (passes realize id (.ofOptions {}) 3 [grouped] (.ofSeed 0)).source.taken = 3 := by
  intro degree left sum double chain grouped
  have hcheck : (passes realize id (.ofOptions {}) 3 [chain] (.ofSeed 0)).result.toOption.any (·.length = 6) =
      true := by
    decide +kernel
  have htaken : (passes realize id (.ofOptions {}) 3 [chain] (.ofSeed 0)).source.taken = 3 := by decide +kernel
  obtain ⟨steps, hsteps, hlength⟩ := eq_ok_of_any hcheck
  obtain ⟨-, -, hpasses⟩ := chain_folds_left (rfl : double.isZip = false) "(0 (1,6))+<1 2>{x*2}" "(0 (1,6))+<1 2>"
    "((0 (1,6))+<1 2>)" "((0 (1,6))+<1 2>){x*2}" left [sum] (.ofOptions {}) (.ofSeed 0)
  have hrun := hpasses 3 [] []
  exact ⟨rfl, steps, hsteps, of_decide_eq_true hlength, hrun.result.trans hsteps,
    (congrArg Source.taken hrun.source).trans htaken⟩

end NumberedMelody
