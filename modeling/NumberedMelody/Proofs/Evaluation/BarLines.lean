/-
  NumberedMelody/Proofs/Evaluation/BarLines.lean
  ==============================================
  **Bar lines.**  Whatever is evaluated, the options that a bar line goes back
  to stay the ones that the pattern started with, and names that no node assigns
  keep their values (`evaluate_keepsName`).  What stands behind a bar line is
  therefore evaluated as it would be on its own, as long as it names no variable
  that was assigned in front of it (`bar_cuts_off_past`).
-/
import NumberedMelody.Proofs.Evaluation.Brackets
import NumberedMelody.Proofs.Evaluation.Maintenance
import NumberedMelody.Proofs.Evaluation.SideBySide

namespace NumberedMelody

open NumberedMelody.Random (Source)

/-! ### What no node assigns -/

/-- Some names that no node assigns. -/
def sparing (kept : String → Prop) : Invariant where
  node := fun node => ∀ name, kept name → node.assigned? ≠ some name

theorem sparing_kept (kept : String → Prop) : (sparing kept).Kept where
  toKeptByNodes := {
    shape := by
      intro node other hnode hshape name hname
      rw [← Node.assigned?_unplayed, hshape, Node.assigned?_unplayed]
      exact hnode name hname
    operators := fun _ _ => trivial
    played := fun _ _ _ => by simp [Node.assigned?]
    list := fun _ _ _ _ => by simp [Node.assigned?] }
  toKeptByOptions := .of_all fun _ => trivial
  toKeptBySources := .of_all fun _ _ => trivial
  toKeptByEvents := .of_all fun _ => trivial

/-- A later context has the same start, and the same values for some names. -/
structure Context.Keeps (kept : String → Prop) (context later : Context) : Prop where
  start : later.start = context.start
  stored : ∀ name, kept name → later.stored.lookup name = context.stored.lookup name

theorem Context.Keeps.refl {kept : String → Prop} (context : Context) : context.Keeps kept context :=
  ⟨rfl, fun _ _ => rfl⟩

namespace Realizer

variable {kept : String → Prop}

/-- The realizer keeps the start, and the values of the names that no node assigns. -/
def Spares (kept : String → Prop) (r : Realizer) : Prop :=
  ∀ node context source, (sparing kept).Admits node → (sparing kept).Allows context →
    context.Keeps kept (r node context source).context

theorem Spares.level {inner stored : Realizer} (h : Spares kept inner) (hstored : Spares kept stored) :
    Spares kept (level inner stored) := by
  intro node context source hnode hcontext
  -- what happens inside a bracket stays there
  by_cases hbracket : node.isBracket = true
  · rw [level_bracket_context hbracket]
    exact .refl context
  cases node with
  | bar text => exact ⟨rfl, fun _ _ => rfl⟩
  | change text change => exact ⟨rfl, fun _ _ => rfl⟩
  | cycle text values visits =>
    simp only [Realizer.level, visit]
    cases hplace : values[visits % values.length]? with
    | none => exact .refl context
    | some value => exact h value context source (hnode.inside value (List.mem_of_getElem? hplace)) hcontext
  | assignment text name eager value =>
    have hassign : ∀ value, context.Keeps kept (context.assign name value) := by
      intro value
      refine ⟨rfl, fun other hother => ?_⟩
      have hne : other ≠ name := by
        rintro rfl
        exact hnode.here other hother rfl
      simp only [Context.assign, lookup_insert, if_neg hne]
    simp only [Realizer.level, assignment]
    cases eager with
    | false => exact hassign value
    | true =>
      simp only [if_true]
      cases (events inner value context source).result with
      | error failure => exact .refl context
      | ok played => exact hassign _
  | «variable» text name =>
    simp only [Realizer.level, use]
    cases hlookup : context.stored.lookup name with
    | none => exact .refl context
    | some value => exact hstored value context source (hcontext.lookup hlookup) hcontext
  | sequence | subdivision | repetition | operations | euclid | together => exact absurd rfl hbracket
  | _ => exact .refl context

theorem spares_exhausted (kept : String → Prop) : Spares kept exhausted := fun _ context _ _ _ => .refl context

theorem Spares.toDepth {stored : Realizer} (hstored : Spares kept stored) (depth : Nat) :
    Spares kept (toDepth stored depth) := by
  induction depth with
  | zero => exact spares_exhausted kept
  | succ depth ih => exact ih.level hstored

theorem nested_spares (kept : String → Prop) (limit : Nat) : Spares kept (nested limit) := by
  induction limit with
  | zero => exact spares_exhausted kept
  | succ limit ih =>
    intro node context source hnode hcontext
    exact ih.toDepth node.depth node context source hnode hcontext

end Realizer

/-- **What no node assigns keeps its value**, and so do the options at the start. -/
theorem evaluate_keeps {kept : String → Prop} (nodes : List Node) :
    ∀ {context : Context} (source : Source), (∀ node ∈ nodes, (sparing kept).Admits node) →
      (sparing kept).Allows context → context.Keeps kept (evaluate nodes context source).context := by
  show ∀ {context : Context} (source : Source), _ → _ →
    context.Keeps kept (Realizer.inOrder realize nodes context source).context
  induction nodes with
  | nil =>
    intro context source _ _
    exact .refl context
  | cons node more ih =>
    intro context source hnodes hcontext
    have hnode := hnodes node (List.mem_cons_self ..)
    have hfirst := Realizer.nested_spares kept nestingLimit node context source hnode hcontext
    have hallows := (realize_maintains (sparing_kept kept) 0 node context source hnode hcontext trivial).context
    simp only [Realizer.inOrder, Run.withTree, Run.andThen]
    cases (realize node context source).result with
    | error failure => exact hfirst
    | ok steps =>
      have hrest := ih (realize node context source).source
        (fun node hnode => hnodes node (List.mem_cons_of_mem _ hnode)) hallows
      exact ⟨hrest.start.trans hfirst.start,
        fun name hname => (hrest.stored name hname).trans (hfirst.stored name hname)⟩

theorem evaluate_start (nodes : List Node) (options : Options) (source : Source) :
    (evaluate nodes (.ofOptions options) source).context.start = options := by
  have hall : ∀ node, (sparing fun _ => False).Admits node := Node.everywhere_of_all fun _ _ h => h.elim
  exact (evaluate_keeps nodes source (fun node _ => hall node) (.ofOptions trivial)).start

theorem Node.NeverAssigns.spared {name : String} {node : Node} (h : node.NeverAssigns name) :
    (sparing (· = name)).Admits node := by
  refine h.imp ?_
  rintro inside hinside _ rfl
  exact hinside

theorem evaluate_lookup {name : String} {nodes : List Node} (hnodes : ∀ node ∈ nodes, node.NeverAssigns name)
    (options : Options) (source : Source) :
    (evaluate nodes (.ofOptions options) source).context.stored.lookup name = none := by
  have hspared : ∀ node ∈ nodes, (sparing (· = name)).Admits node := fun node hnode => (hnodes node hnode).spared
  exact (evaluate_keeps nodes source hspared (.ofOptions trivial)).stored name rfl

/-! ### Behind a bar line -/

theorem evaluate_stacked (nodes : List Node) (context : Context) (source : Source) :
    source.Stacked 0 (evaluate nodes context source).source := by
  have hall : ∀ node, (stacking source).Admits node := Node.everywhere_of_all fun _ => trivial
  exact (evaluate_maintains (stacking_kept source) (fun node _ => hall node)
    ⟨trivial, trivial, fun entry _ => hall entry.2⟩ (.start source)).source

theorem evaluate_bar (text : String) (context : Context) (source : Source) :
    evaluate [.bar text] context source = ⟨[.bar text], context.nextMeasure, source, .ok []⟩ := by
  unfold evaluate
  rw [Realizer.inOrder, realize_eq_level]
  rfl

/-- Names that are assigned nowhere in some nodes. -/
def likenessBehind (past : List Node) : Likeness where
  used := fun name => ∀ node ∈ past, node.NeverAssigns name

theorem likenessBehind_literal (past : List Node) : (likenessBehind past).Literal := fun _ _ h => h

theorem likenessBehind_lawful (past : List Node) : (likenessBehind past).Lawful :=
  .of_literal (likenessBehind_literal past) rfl rfl

/-- Behind a bar line the context is like the one at the start. -/
theorem alike_behind_bar (past : List Node) (options : Options) (source : Source) :
    (evaluate past (.ofOptions options) source).context.nextMeasure.Alike (likenessBehind past) (.ofOptions options) where
  options := evaluate_start past options source
  start := evaluate_start past options source
  stored := by
    intro name hname
    rw [Context.nextMeasure, evaluate_lookup hname options source]
    exact .none
  writtenOut := fun h => h.elim

/-- **A bar line cuts off the past.**  Behind nodes that draw nothing and a bar
    line, nodes that name no variable assigned there yield what they yield on
    their own, and the options are those of the start again. -/
theorem bar_cuts_off_past {past future : List Node} {options : Options} {source : Source} {events : List Event}
    (text : String) (hnames : ∀ node ∈ future, node.Everywhere fun inside =>
      ∀ name ∈ inside.used, ∀ node ∈ past, node.NeverAssigns name)
    (hquiet : (evaluate past (.ofOptions options) source).source.taken = source.taken)
    (h : (evaluate (past ++ .bar text :: future) (.ofOptions options) source).result = .ok events) :
    (evaluate (past ++ [.bar text]) (.ofOptions options) source).context.options = options ∧
    ∃ before after, (evaluate past (.ofOptions options) source).result = .ok before ∧
      (evaluate future (.ofOptions options) source).result = .ok after ∧ events = before ++ after := by
  obtain ⟨before, hbefore⟩ := evaluate_of_append_ok h
  have hbar := evaluate_append hbefore [.bar text]
  simp only [evaluate_bar] at hbar
  have hbarOk : (evaluate (past ++ [.bar text]) (.ofOptions options) source).result = .ok before := by
    rw [hbar]
    exact congrArg Except.ok (List.append_nil before)
  -- behind the bar line the future is run from where the past ended, with the same source
  have hsource : (evaluate past (.ofOptions options) source).source = source :=
    (evaluate_stacked past _ source).eq_of_taken_eq hquiet
  rw [List.append_cons, evaluate_append hbarOk, hbar, hsource] at h
  obtain ⟨after, hafter, rfl⟩ := map_eq_ok.mp h
  have hfuture : List.Forall₂ (Node.Alike (likenessBehind past) true) future future :=
    List.forall₂_same.mpr fun node hnode =>
      Node.alike_self (likenessBehind_lawful past)
        ((hnames node hnode).imp fun _ hinside => ⟨hinside, fun _ _ => trivial⟩) true
  have hrun := evaluate_tracks (likenessBehind_lawful past) (likenessBehind_literal past) hfuture
    (alike_behind_bar past options source) source
  -- nothing is taken for anything but itself
  have hsame := ((hrun.result.same (likenessBehind_literal past)).mono fun _ _ => forall₂_eq.mp).eq
  refine ⟨?_, before, after, hbefore, ?_, rfl⟩
  · rw [hbar]
    exact evaluate_start past options source
  · exact hsame.symm.trans hafter

/-- Control items and a variable in front of a bar line; another variable and a
    random degree behind it. -/
theorem octave_and_variable_cut_off :
    let degree (n : Int) : Node := .event (.pitch (.ofDegree n))
    let past : List Node :=
      [.change "^" (.octaveAdd 1), .assignment "A=2" "A" false (degree 2), .variable "A" "A", .change "q" (.duration 0.25)]
    let future : List Node :=
      [.assignment "B=(1 ?)" "B" false (.sequence "(1 ?)" {} true [degree 1, .randomPitch "?" {}]), .variable "B" "B",
        .bar "|", degree 3]
    ∃ events before after,
      (evaluate (past ++ .bar "|" :: future) (.ofOptions {}) (.ofSeed 0)).result = .ok events ∧ events.length = 4 ∧
      (evaluate (past ++ [.bar "|"]) (.ofOptions {}) (.ofSeed 0)).context.options = {} ∧
      (evaluate past (.ofOptions {}) (.ofSeed 0)).result = .ok before ∧
      (evaluate future (.ofOptions {}) (.ofSeed 0)).result = .ok after ∧ events = before ++ after := by
  intro degree past future
  have hcheck : (evaluate (past ++ .bar "|" :: future) (.ofOptions {}) (.ofSeed 0)).result.toOption.any
      (·.length = 4) = true := by decide +kernel
  obtain ⟨events, hevents, hlength⟩ := eq_ok_of_any hcheck
  have hquiet : (evaluate past (.ofOptions {}) (.ofSeed 0)).source.taken = (Source.ofSeed 0).taken := by
    decide +kernel
  have hpast : ∀ node ∈ past, node.Everywhere fun inside => inside.assigned?.all (· == "A") = true := by
    have hall : past.all (Node.checkTo (·.assigned?.all (· == "A")) 3) = true := by decide +kernel
    exact fun node hnode => Node.everywhere_of_checkTo 3 (List.all_eq_true.mp hall node hnode)
  have hfuture : ∀ node ∈ future, node.Everywhere fun inside => (!inside.used.contains "A") = true := by
    have hall : future.all (Node.checkTo (!·.used.contains "A") 3) = true := by decide +kernel
    exact fun node hnode => Node.everywhere_of_checkTo 3 (List.all_eq_true.mp hall node hnode)
  have hnames : ∀ node ∈ future, node.Everywhere fun inside =>
      ∀ name ∈ inside.used, ∀ node ∈ past, node.NeverAssigns name := by
    intro node hnode
    refine (hfuture node hnode).imp ?_
    intro inside hinside name hname other hother
    refine (hpast other hother).imp ?_
    intro assigning hassigning hassigned
    rw [hassigned] at hassigning
    obtain rfl : name = "A" := by simpa using hassigning
    simp [hname] at hinside
  obtain ⟨hoptions, before, after, hbefore, hafter, hsplit⟩ := bar_cuts_off_past "|" hnames hquiet hevents
  exact ⟨events, before, after, hevents, of_decide_eq_true hlength, hoptions, hbefore, hafter, hsplit⟩

end NumberedMelody
