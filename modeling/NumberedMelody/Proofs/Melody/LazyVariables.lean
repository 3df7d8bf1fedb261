/-
  NumberedMelody/Proofs/Melody/LazyVariables.lean
  ===============================================
  **A lazy variable stands for its node.**  The node that is stored is run
  anew, in the context of the use, whenever the variable is met, and that is
  what happens to a copy of the node in the place of the use.  So a melody can
  have a variable that is assigned once written out wherever it is used, and no
  cycle sounds different (`written_out_sounds_the_same`).

  The node has no cycles, so the copy in the tree keeps no count of its own.
  Its numerals do keep their chords from one cycle to the next, which those of
  the stored node do not; a kept chord compares equal to a chord that is spelled
  out again.
-/
import NumberedMelody.Proofs.Evaluation.BarLines
import NumberedMelody.Proofs.Evaluation.DerivedSideBySide
import NumberedMelody.Proofs.Evaluation.PlayedTrees
import NumberedMelody.Proofs.Grammar.Written
import NumberedMelody.Proofs.Melody.Looping

namespace NumberedMelody

open NumberedMelody.Random (Source)
open Realizer (derived)

/-! ### Writing a variable out -/

namespace Node

variable (name : String) (value : Node)

mutual

/-- The tree with a node in place of every use of a variable, at any depth. -/
def inlined : Node → Node
  | .variable text other => if other = name then value else .variable text other
  | .sequence text overrides isList values => .sequence text overrides isList (inlinedAll values)
  | .cycle text values visits => .cycle text (inlinedAll values) visits
  | .subdivision text overrides values => .subdivision text overrides (inlinedAll values)
  | .repetition text replayed values count => .repetition text replayed (inlinedAll values) (inlined count)
  | .operations text left steps => .operations text (inlined left) (inlinedSteps steps)
  | .euclid text pulses length rotate onset offset =>
    .euclid text pulses length rotate (inlined onset) (inlinedOption offset)
  | .assignment text other eager inner => .assignment text other eager (inlined inner)
  | other => other

def inlinedAll : List Node → List Node
  | [] => []
  | node :: more => inlined node :: inlinedAll more

def inlinedOption : Option Node → Option Node
  | none => none
  | some node => some (inlined node)

def inlinedStep : Operation Node → Operation Node
  | .binary op right => .binary op (inlinedOption right)
  | .map expr => .map expr

def inlinedSteps : List (Operation Node) → List (Operation Node)
  | [] => []
  | step :: more => inlinedStep step :: inlinedSteps more

end

variable {name value}

theorem inlinedAll_eq_map (nodes : List Node) : inlinedAll name value nodes = nodes.map (inlined name value) := by
  induction nodes with
  | nil => rfl
  | cons node more ih => rw [inlinedAll, ih, List.map_cons]

theorem inlinedSteps_eq_map (steps : List (Operation Node)) :
    inlinedSteps name value steps = steps.map (inlinedStep name value) := by
  induction steps with
  | nil => rfl
  | cons step more ih => rw [inlinedSteps, ih, List.map_cons]

/-- The node counts nothing and has nothing to do with variables. -/
def standsAlone : Node → Bool
  | .cycle _ _ _ => false
  | .variable _ _ => false
  | .together _ _ => false
  | .assignment _ _ _ _ => false
  | _ => true

end Node

/-! ### A tree and the tree written out -/

/-- Uses of one name may be written out as one node, whatever chords it keeps;
    the name is not assigned. -/
def writingOut (name : String) (value : Node) : Likeness where
  writtenOut := fun other node => other = name ∧ node.unplayed = value.unplayed
  assigned := (· ≠ name)
  event := Event.Same
  numeral := fun k k' => k.numeral = k'.numeral

section Inlining

variable {name : String} {value : Node}

theorem writingOut_lawful (hblank : value.isBlank = false) : (writingOut name value).Lawful where
  isBlank := by
    rintro _ node ⟨-, hplayed⟩
    rw [Node.isBlank_eq_of_unplayed_eq hplayed]
    exact hblank
  played := by
    rintro _ node other ⟨hname, hplayed⟩ hother
    exact ⟨hname, hother.trans hplayed⟩
  unassigned := by
    rintro _ _ ⟨rfl, -⟩ hne
    exact hne rfl
  events := keepingChords_lawful.events
  sameNumeral := keepingChords_lawful.sameNumeral
  text := keepingChords_lawful.text
  answers := keepingChords_lawful.answers

/-- Nodes that do not assign the name are like themselves. -/
theorem Node.NeverAssigns.alike_self (hL : (writingOut name value).Lawful) {node : Node} (h : node.NeverAssigns name)
    (loose : Bool) : node.Alike (writingOut name value) loose node := by
  refine Node.alike_self hL (h.imp ?_) loose
  intro inside hinside
  refine ⟨fun _ _ => trivial, ?_⟩
  rintro other hother rfl
  exact hinside hother

/-- A value that stands alone is like whatever it is written out as. -/
theorem alike_of_standsAlone (hL : (writingOut name value).Lawful)
    (halone : value.Everywhere fun inside => inside.standsAlone = true) {node : Node}
    (hplayed : node.unplayed = value.unplayed) : value.Alike (writingOut name value) false node := by
  refine Node.alike_of_unplayed_eq hL id (halone.imp fun inside hinside => ?_) false hplayed
  cases inside with
  | cycle | assignment => cases hinside
  | _ => exact ⟨rfl, fun _ _ => trivial, fun other hother => by cases hother⟩

/-- A tree that was read is like the tree written out; where no use can stand
    in a text, nothing is written out. -/
theorem Node.alike_inlined (hL : (writingOut name value).Lawful) {node : Node}
    (h : node.Everywhere fun inside => inside.Textual ∧ inside.assigned? ≠ some name) :
    ∀ loose, (node.isUse = true → loose = true) →
      node.Alike (writingOut name value) loose (inlined name value node) := by
  induction h with
  | @intro node here _ ih =>
    intro loose hloose
    obtain ⟨htextual, hassigns⟩ := here
    have hall : ∀ nodes : List Node, (∀ child ∈ nodes, child ∈ node.children) →
        List.Forall₂ (Node.Alike (writingOut name value) true) nodes (inlinedAll name value nodes) := by
      intro nodes hnodes
      rw [inlinedAll_eq_map, List.forall₂_map_right_iff]
      exact List.forall₂_same.mpr fun child hchild => ih child (hnodes child hchild) true fun _ => rfl
    have hplaced : ∀ child ∈ node.children, child.isUse = false →
        child.Alike (writingOut name value) false (inlined name value child) := by
      intro child hchild huse
      exact ih child hchild false fun h => by simp [huse] at h
    cases node with
    | event e => exact .event _ (hL.events.refl e)
    | numeral k => exact .numeral _ rfl
    | sequence text overrides isList values =>
      exact .sequence _ _ _ (fun _ => rfl) (hall values fun _ hmem => hmem)
    | cycle text values visits => exact .cycle _ _ _ (hall values fun _ hmem => hmem)
    | subdivision text overrides values => exact .subdivision _ _ _ (hall values fun _ hmem => hmem)
    | repetition text replayed values count =>
      exact .repetition _ _ _ (hall values fun _ hmem => List.mem_cons_of_mem _ hmem)
        (hplaced count (List.mem_cons_self ..) htextual)
    | operations text left steps =>
      refine .operations _ _ (hplaced left (List.mem_cons_self ..) htextual.1) ?_
      rw [inlinedSteps_eq_map, List.forall₂_map_right_iff]
      refine List.forall₂_same.mpr fun step hstep => ?_
      cases step with
      | map expr => exact .map expr
      | binary op right =>
        cases right with
        | none => exact .binary op .none
        | some right =>
          have hmem : right ∈ (Node.operations text left steps).children :=
            List.mem_cons_of_mem _ (List.mem_filterMap.mpr ⟨.binary op (some right), hstep, rfl⟩)
          exact .binary op (.some (hplaced right hmem (htextual.2 _ hstep right rfl)))
    | euclid text pulses length rotate onset offset =>
      have honset := hplaced onset (List.mem_cons_self ..) htextual.1
      cases offset with
      | none => exact .euclid _ _ _ _ _ honset .none
      | some offset =>
        exact .euclid _ _ _ _ _ honset (.some (hplaced offset (by simp [children]) (htextual.2 offset rfl)))
    | assignment text other eager inner =>
      have hother : other ≠ name := fun hsame => hassigns (congrArg some hsame)
      exact .assignment _ _ _ hother (ih inner (List.mem_singleton.mpr rfl) true fun _ => rfl)
    | «variable» text other =>
      obtain rfl := hloose rfl
      unfold inlined
      by_cases hother : other = name
      · rw [if_pos hother]
        exact .writtenOut text ⟨hother, rfl⟩
      · rw [if_neg hother]
        exact .variable _ _ trivial
    | together text names => exact .together _ _ fun _ _ => trivial
    | _ => exact .plain _ rfl

/-- No stored value assigns the name. -/
def assigningNowhere (name : String) : Domain where
  context := fun context => ∀ other node, context.stored.lookup other = some node → node.NeverAssigns name

theorem assigningNowhere_assign {context : Context} (h : (assigningNowhere name).context context) (other : String)
    {node : Node} (hnode : node.NeverAssigns name) : (assigningNowhere name).context (context.assign other node) := by
  intro found stored hstored
  rcases Context.lookup_assign hstored with ⟨-, rfl⟩ | hbefore
  · exact hnode
  · exact h found stored hbefore

theorem assigningNowhere_lawful (name : String) : (assigningNowhere name).Lawful where
  inside := by
    intro context h overrides
    unfold Context.inside
    split
    · exact h
    · exact h
  after := fun h _ => h
  nextMeasure := fun h => h
  played := by
    intro context h other text events
    refine assigningNowhere_assign h other (.intro (by simp [Node.assigned?]) ?_)
    intro child hchild
    obtain ⟨e, -, rfl⟩ := List.mem_map.mp hchild
    exact .leaf (by simp [Node.assigned?]) rfl
  ordinary := fun _ => trivial

theorem assigningNowhere_admits (name : String) :
    (assigningNowhere name).Admits (Node.NeverAssigns name) (Node.NeverAssigns name) where
  assign := fun hnode hcontext => assigningNowhere_assign hcontext _ (hnode.inside _ (List.mem_singleton.mpr rfl))
  numeral := fun _ _ _ _ => trivial
  found := fun _ _ hcontext hstored => hcontext _ _ hstored
  unknown := fun _ _ _ _ _ => trivial

theorem within_neverAssigns (name : String) :
    Realizer.Within (Node.NeverAssigns name) (Node.NeverAssigns name) := by
  refine Realizer.within_everywhere ?_ fun e => by simp [Node.assigned?]
  intro node other hnode hplayed
  rw [← Node.assigned?_unplayed, hplayed, Node.assigned?_unplayed]
  exact hnode

/-- The same nodes up to the assignment of a variable, which is assigned nowhere
    else, and behind it nodes in which uses may be written out. -/
def WrittenOut (text name : String) (value : Node) (nodes nodes' : List Node) : Prop :=
  ∃ before body body', nodes = before ++ .assignment text name false value :: body ∧
    nodes' = before ++ .assignment text name false value :: body' ∧ (∀ node ∈ before, node.NeverAssigns name) ∧
    List.Forall₂ (Node.Alike (writingOut name value) true) body body'

/-- Behind the assignment the context is like itself. -/
theorem alike_behind_assignment (hL : (writingOut name value).Lawful)
    (halone : value.Everywhere fun inside => inside.standsAlone = true) {context : Context}
    (h : (assigningNowhere name).context context) :
    (context.assign name value).Alike (writingOut name value) (context.assign name value) where
  options := rfl
  start := rfl
  stored := by
    intro other _
    simp only [Context.assign, lookup_insert]
    by_cases hother : other = name
    · rw [if_pos hother]
      exact .some (alike_of_standsAlone hL halone rfl).loosen
    · rw [if_neg hother]
      cases hstored : context.stored.lookup other with
      | none => exact .none
      | some node => exact .some ((h other node hstored).alike_self hL true)
  writtenOut := by
    rintro _ node ⟨rfl, hplayed⟩
    refine ⟨value, ?_, alike_of_standsAlone hL halone hplayed⟩
    simp only [Context.assign, lookup_insert, if_true]

/-- **Written out, a cycle yields the same.**  Either way there is a run if there
    is one the other way. -/
theorem yields_writtenOut (hL : (writingOut name value).Lawful)
    (halone : value.Everywhere fun inside => inside.standsAlone = true) {text : String} {nodes nodes' : List Node}
    (h : WrittenOut text name value nodes nodes') (options : Options) (source : Source) :
    let run := (Realizer.inOrder derived nodes (.ofOptions options) source).withResult assignDurations
    let run' := (Realizer.inOrder derived nodes' (.ofOptions options) source).withResult assignDurations
    WrittenOut text name value run.tree run'.tree ∧ run.source = run'.source ∧
      (writingOut name value).Yields (List.Forall₂ Event.Same) run.result run'.result := by
  obtain ⟨before, body, body', rfl, rfl, hbefore, hbody⟩ := h
  have hfollows := derived_follows (assigningNowhere_lawful name) (assigningNowhere_admits name)
    (within_neverAssigns name) trivial
  have hstays := (hfollows.inOrder before (.ofOptions options) source hbefore fun _ _ h => by cases h).context
  have hleft : ∀ node ∈ (Realizer.inOrder derived before (.ofOptions options) source).tree, node.NeverAssigns name :=
    (within_neverAssigns name).visitsAll hbefore (derived_keepsShape.inOrder before _ source)
  cases hresult : (Realizer.inOrder derived before (.ofOptions options) source).result with
  | error failure =>
    rw [Realizer.inOrder_append, Realizer.inOrder_append]
    simp only [Run.andThen, hresult, Run.withTree, Run.withResult]
    exact ⟨⟨_, body, body', rfl, rfl, hleft, hbody⟩, trivial, .fails failure⟩
  | ok steps =>
    rw [Realizer.inOrder_append_of_ok hresult, Realizer.inOrder_append_of_ok hresult]
    simp only [Realizer.inOrder_assignment]
    have halike := ((derived_tracks hL).inOrder hbody
      (Realizer.inOrder derived before (.ofOptions options) source).source
      (alike_behind_assignment hL halone hstays)).alike
    refine ⟨⟨_, _, _, rfl, rfl, hleft, halike.tree⟩, halike.source, ?_⟩
    simp only [Run.withResult, Run.withTree]
    refine (halike.result.bind fun more more' hmore => ?_).bind (Realizer.yields_assignDurations hL)
    exact Realizer.yields_append (List.forall₂_same.mpr fun step _ => .refl hL.events step) more more' hmore

end Inlining

namespace Melody

/-- The evaluation of a cycle, counted from here. -/
def evaluation (m : Melody) (c : Nat) : Run (List Node) (List Event) :=
  evaluate (m.after c).nodes (.ofOptions (m.after c).start) (m.after c).source

theorem after_succ (m : Melody) (c : Nat) :
    (m.after (c + 1)).nodes = (m.evaluation c).tree ∧ (m.after (c + 1)).source = (m.evaluation c).source ∧
      (m.after (c + 1)).start = (m.after c).start :=
  (m.after c).reEvaluate_leaves

/-- How a cycle is run, counted from here, where it comes to an end and each one
    before it did.  There is no limit on variables. -/
inductive Cycle (m : Melody) : Nat → Run (List Node) (List Event) → Prop where
  | first {run : Run (List Node) (List Event)} (h : EvaluatesAll m.nodes (.ofOptions m.start) m.source run) :
    Cycle m 0 run
  | next {c : Nat} {before run : Run (List Node) (List Event)} (hbefore : Cycle m c before)
    (h : EvaluatesAll before.tree (.ofOptions m.start) before.source run) : Cycle m (c + 1) run

/-- The runs of cycle after cycle, those included that give up. -/
noncomputable def cycleOf (m : Melody) : Nat → Run (List Node) (List Event)
  | 0 => (Realizer.inOrder derived m.nodes (.ofOptions m.start) m.source).withResult assignDurations
  | c + 1 =>
    (Realizer.inOrder derived (m.cycleOf c).tree (.ofOptions m.start) (m.cycleOf c).source).withResult assignDurations

theorem cycle_iff {m : Melody} {c : Nat} {run : Run (List Node) (List Event)} :
    m.Cycle c run ↔ m.cycleOf c = run ∧ ∀ k ≤ c, (m.cycleOf k).result ≠ .error .nestedTooDeep := by
  induction c generalizing run with
  | zero =>
    constructor
    · rintro (h | -)
      obtain ⟨hdeep, hrun⟩ := evaluatesAll_iff.mp h
      have hzero : m.cycleOf 0 = run := hrun
      refine ⟨hzero, fun k hk => ?_⟩
      rw [Nat.le_zero.mp hk, hzero]
      exact hdeep
    · rintro ⟨rfl, hdeep⟩
      exact .first (evaluatesAll_iff.mpr ⟨hdeep 0 (Nat.le_refl 0), rfl⟩)
  | succ c ih =>
    constructor
    · rintro (- | ⟨hbefore, h⟩)
      obtain ⟨rfl, hdeeps⟩ := ih.mp hbefore
      obtain ⟨hdeep, hrun⟩ := evaluatesAll_iff.mp h
      have hsucc : m.cycleOf (c + 1) = run := hrun
      refine ⟨hsucc, fun k hk => ?_⟩
      rcases Nat.le_succ_iff.mp hk with hle | rfl
      · exact hdeeps k hle
      · rw [hsucc]
        exact hdeep
    · rintro ⟨rfl, hdeep⟩
      refine .next (ih.mpr ⟨rfl, fun k hk => hdeep k (Nat.le_succ_of_le hk)⟩) ?_
      exact evaluatesAll_iff.mpr ⟨hdeep (c + 1) (Nat.le_refl _), rfl⟩

theorem after_start (m : Melody) (c : Nat) : (m.after c).start = m.start := by
  induction c with
  | zero => rfl
  | succ c ih => exact (m.after_succ c).2.2.trans ih

/-- Evaluation that meets no limit on variables runs the cycles. -/
theorem cycle_evaluation (m : Melody) (c : Nat) (h : ∀ k ≤ c, (m.evaluation k).result ≠ .error .nestedTooDeep) :
    m.Cycle c (m.evaluation c) := by
  induction c with
  | zero => exact .first (evaluatesAll_evaluate (h 0 (Nat.le_refl 0)))
  | succ c ih =>
    obtain ⟨htree, hsource, -⟩ := m.after_succ c
    have hrun := evaluatesAll_evaluate (h (c + 1) (Nat.le_refl _))
    refine .next (ih fun k hk => h k (Nat.le_succ_of_le hk)) ?_
    rw [← htree, ← hsource, ← m.after_start (c + 1)]
    exact hrun

/-- Two melodies that differ in uses that are written out go on to do so. -/
theorem cycleOf_writtenOut {name written : String} {value : Node} (hL : (writingOut name value).Lawful)
    (halone : value.Everywhere fun inside => inside.standsAlone = true) {m m' : Melody}
    (hnodes : WrittenOut written name value m.nodes m'.nodes) (hstart : m.start = m'.start)
    (hsource : m.source = m'.source) (c : Nat) :
    WrittenOut written name value (m.cycleOf c).tree (m'.cycleOf c).tree ∧ (m.cycleOf c).source = (m'.cycleOf c).source ∧
      (writingOut name value).Yields (List.Forall₂ Event.Same) (m.cycleOf c).result (m'.cycleOf c).result := by
  induction c with
  | zero =>
    unfold cycleOf
    rw [← hstart, ← hsource]
    exact yields_writtenOut hL halone hnodes m.start m.source
  | succ c ih =>
    obtain ⟨htree, hleft, -⟩ := ih
    unfold cycleOf
    rw [← hstart, ← hleft]
    exact yields_writtenOut hL halone htree m.start (m.cycleOf c).source

/-- **A lazy variable is its node, written out.**  In a pattern with one
    assignment of a lazy variable, whose node has no cycles and nothing to do
    with variables, all later uses can be written out: every cycle comes to an
    end or does not as before, leaves the same source, and fails as before or
    yields events that compare equal. -/
theorem written_out_sounds_the_same {text written name : String} {before body : List Node} {value : Node}
    (hread : readPattern text = .ok (before ++ .assignment written name false value :: body))
    (honce : ∀ node ∈ before ++ body, node.NeverAssigns name)
    (halone : value.Everywhere fun inside => inside.standsAlone = true) (options : Options) (source : Source) (c : Nat) :
    let m : Melody := { ofNodes text (before ++ .assignment written name false value :: body) with
      start := options, source }
    let m' : Melody := { m with
      nodes := before ++ .assignment written name false value :: body.map (Node.inlined name value) }
    ((∃ run, m.Cycle c run) ↔ ∃ run', m'.Cycle c run') ∧
      ∀ run run', m.Cycle c run → m'.Cycle c run' → run.source = run'.source ∧
        Option.Rel (List.Forall₂ Event.Same) run.result.toOption run'.result.toOption := by
  intro m m'
  have htextual := readPattern_textual hread
  have hvalue : value.isValue = true :=
    (htextual (.assignment written name false value) (List.mem_append_right _ (List.mem_cons_self ..))).here
  have hblank : value.isBlank = false := by
    cases value with
    | blank text => cases hvalue
    | _ => rfl
  have hL : (writingOut name value).Lawful := writingOut_lawful hblank
  have hbody : List.Forall₂ (Node.Alike (writingOut name value) true) body (body.map (Node.inlined name value)) := by
    rw [List.forall₂_map_right_iff]
    refine List.forall₂_same.mpr fun node hnode => Node.alike_inlined hL ?_ true fun _ => rfl
    have hread := htextual node (List.mem_append_right _ (List.mem_cons_of_mem _ hnode))
    exact hread.and (honce node (List.mem_append_right _ hnode))
  have hwritten : WrittenOut written name value m.nodes m'.nodes :=
    ⟨before, body, _, rfl, rfl, fun node hnode => honce node (List.mem_append_left _ hnode), hbody⟩
  have hcycles := cycleOf_writtenOut hL halone hwritten rfl rfl
  constructor
  · simp only [cycle_iff, exists_eq_left', ne_eq, (hcycles _).2.2.deep_iff]
  · intro run run' hrun hrun'
    obtain ⟨rfl, -⟩ := cycle_iff.mp hrun
    obtain ⟨rfl, -⟩ := cycle_iff.mp hrun'
    exact ⟨(hcycles c).2.1, (hcycles c).2.2.toOption⟩

/-- Nodes with a lazy variable in front, which is assigned once to a node that stands alone. -/
def startsWithLazy (name : String) : List Node → Bool
  | .assignment _ other eager value :: body =>
    other == name && !eager && value.checkTo Node.standsAlone value.depth &&
      body.all fun node => node.checkTo (·.assigned? != some name) node.depth
  | _ => false

theorem exists_of_startsWithLazy {name : String} {nodes : List Node} (h : startsWithLazy name nodes = true) :
    ∃ written value body, nodes = .assignment written name false value :: body ∧
      (value.Everywhere fun inside => inside.standsAlone = true) ∧ ∀ node ∈ body, node.NeverAssigns name := by
  unfold startsWithLazy at h
  split at h
  · next written other eager value body =>
    simp only [Bool.and_eq_true, beq_iff_eq, Bool.not_eq_true', List.all_eq_true] at h
    obtain ⟨⟨⟨rfl, rfl⟩, halone⟩, honce⟩ := h
    refine ⟨written, value, body, rfl, Node.everywhere_of_checkTo _ halone, fun node hnode => ?_⟩
    exact (Node.everywhere_of_checkTo _ (honce node hnode)).imp fun inside hinside => by simpa using hinside
  · cases h

/-- The number of events of a cycle, if it yields any. -/
def eventCount (m : Melody) (c : Nat) : Option Nat := (m.evaluation c).result.toOption.map List.length

theorem exists_of_eventCount {m : Melody} {c count : Nat} (h : m.eventCount c = some count) :
    ∃ events, (m.evaluation c).result = .ok events ∧ events.length = count := by
  unfold eventCount at h
  cases hresult : (m.evaluation c).result with
  | error failure =>
    rw [hresult] at h
    cases h
  | ok events =>
    rw [hresult] at h
    exact ⟨events, rfl, Option.some.inj h⟩

/-- A list with a control item, a random degree and a numeral, used in a
    subdivision, in a cycle, in a repeat and through another variable: the second
    cycle. -/
theorem random_list_written_out :
    ∃ written value body run run',
      readPattern "A=(^ ? iv) A <[A 1] A> (:A:2) B=A B" = .ok (.assignment written "A" false value :: body) ∧
      let m : Melody := { ofNodes "A=(^ ? iv) A <[A 1] A> (:A:2) B=A B" (.assignment written "A" false value :: body) with
        source := .ofSeed 3 }
      let m' : Melody := { m with
        nodes := .assignment written "A" false value :: body.map (Node.inlined "A" value) }
      m.Cycle 1 run ∧ m'.Cycle 1 run' ∧ run.source = run'.source ∧ (∃ events, run.result = .ok events ∧ events.length = 10) ∧
        Option.Rel (List.Forall₂ Event.Same) run.result.toOption run'.result.toOption := by
  have hcheck : (readPattern "A=(^ ? iv) A <[A 1] A> (:A:2) B=A B").toOption.any (fun nodes =>
      let m : Melody := { ofNodes "A=(^ ? iv) A <[A 1] A> (:A:2) B=A B" nodes with source := .ofSeed 3 }
      startsWithLazy "A" nodes && m.eventCount 0 == some 11 && m.eventCount 1 == some 10) = true := by decide +kernel
  obtain ⟨nodes, hread, hnodes⟩ := eq_ok_of_any hcheck
  simp only [Bool.and_eq_true, beq_iff_eq] at hnodes
  obtain ⟨⟨hstarts, hfirst⟩, hsecond⟩ := hnodes
  obtain ⟨written, value, body, rfl, halone, honce⟩ := exists_of_startsWithLazy hstarts
  obtain ⟨before, hbefore, -⟩ := exists_of_eventCount hfirst
  obtain ⟨events, hevents, hlength⟩ := exists_of_eventCount hsecond
  let m : Melody := { ofNodes "A=(^ ? iv) A <[A 1] A> (:A:2) B=A B" (.assignment written "A" false value :: body) with
    source := .ofSeed 3 }
  have hcycle : m.Cycle 1 (m.evaluation 1) := by
    refine m.cycle_evaluation 1 fun k hk hfailed => ?_
    rcases Nat.le_one_iff_eq_zero_or_eq_one.mp hk with rfl | rfl
    · cases hbefore.symm.trans hfailed
    · cases hevents.symm.trans hfailed
  have hread' : readPattern "A=(^ ? iv) A <[A 1] A> (:A:2) B=A B" =
      .ok ([] ++ .assignment written "A" false value :: body) := hread
  obtain ⟨hends, hsame⟩ := written_out_sounds_the_same hread' honce halone {} (.ofSeed 3) 1
  obtain ⟨run', hcycle'⟩ := hends.mp ⟨_, hcycle⟩
  obtain ⟨hsource, hresult⟩ := hsame _ _ hcycle hcycle'
  exact ⟨written, value, body, _, run', hread, hcycle, hcycle', hsource, ⟨events, hevents, hlength⟩, hresult⟩

end Melody

end NumberedMelody
