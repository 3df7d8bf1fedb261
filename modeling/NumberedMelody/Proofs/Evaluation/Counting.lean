/-
  NumberedMelody/Proofs/Evaluation/Counting.lean
  ==============================================
  **Counters count visits.**  Whatever is run, in whatever context, and whether
  it fails or not: the log of the run accounts for what became of every node
  that is run in its place (`watchAll_tallies`).  The rules of evaluation are
  taken one by one, for any watcher of the nodes inside.
-/
import NumberedMelody.Proofs.Evaluation.Lockstep
import NumberedMelody.Proofs.Evaluation.Tally
import NumberedMelody.Proofs.Evaluation.Watched

namespace NumberedMelody

open NumberedMelody.Random (Source)
open Node (unplayedAll unplayedSteps zipsFirst)
open Layout (listed operands kept apart_listed)
open Realizer (KeepsShape Within)

/-! ### Logs of runs -/

namespace Watched

variable {σ σ' ρ ρ' : Type} {l m : Layout} {out : σ → Layout} {out' : σ' → Layout}

/-- The log of a run accounts for the tree that it leaves. -/
def Tallies (l : Layout) (out : σ → Layout) (watched : Watched σ ρ) : Prop :=
  Tally l (out watched.run.tree) watched.visits

theorem Tallies.unwatched {run : Run σ ρ} (h : out run.tree = l) : (unwatched run).Tallies l out :=
  h ▸ Tally.refl l

theorem Tallies.alter {watched : Watched σ ρ} (h : watched.Tallies l out) {f : Run σ ρ → Run σ' ρ'}
    (hf : out' (f watched.run).tree = out watched.run.tree) : (watched.alter f).Tallies l out' := by
  unfold Tallies Watched.alter
  rw [hf]
  exact h

/-- Branches on which nothing is run stand beside. -/
theorem Tallies.beside {watched : Watched σ ρ} (h : watched.Tallies l out) (hapart : l.Apart m) :
    watched.Tallies (l.or m) fun tree => (out tree).or m := by
  have hboth := h.or (Tally.refl m) hapart
  rwa [List.append_nil] at hboth

theorem Tallies.besides {watched : Watched σ ρ} (h : watched.Tallies m out) (hapart : l.Apart m) :
    watched.Tallies (l.or m) fun tree => l.or (out tree) :=
  (Tally.refl l).or h hapart

theorem Tallies.andThen {first : Watched σ ρ} (h : first.Tallies l out) {untouched : σ'}
    (huntouched : out' untouched = m) {next : ρ → Context → Source → Watched σ' ρ'}
    (hnext : ∀ value context source, (next value context source).Tallies m out') (hapart : l.Apart m) :
    (first.andThen untouched next).Tallies (l.or m) fun tree => (out tree.1).or (out' tree.2) := by
  have hbeside := h.beside hapart
  unfold Tallies Watched.andThen
  cases first.run.result with
  | error failure =>
    rw [← huntouched] at hbeside ⊢
    exact hbeside
  | ok value => exact h.or (hnext value first.run.context first.run.source) hapart

theorem Tallies.onward {first : Watched σ ρ} (h : first.Tallies l out) {next : Run σ ρ → ρ → Watched σ ρ}
    (hnext : ∀ value, (next first.run value).Tallies (out first.run.tree) out) :
    (first.onward next).Tallies l out := by
  unfold Tallies Watched.onward
  cases first.run.result with
  | error failure => exact h
  | ok value => exact h.trans (hnext value)

end Watched

/-! ### The rules of evaluation -/

namespace Watcher

open Watched

/-- The log of a node accounts for the node and all that is inside it. -/
structure CountsAt (watch : Watcher) (node : Node) (context : Context) (source : Source) : Prop where
  proper : [] ∉ (watch node context source).visits
  tallied : Tallied (some node) (some (watch node context source).run.tree) ([] :: (watch node context source).visits)

/-- The logs account for the nodes of `Q`. -/
def Counts (Q : Node → Prop) (watch : Watcher) : Prop :=
  ∀ node context source, Q node → CountsAt watch node context source

variable {P Q : Node → Prop} {watch : Watcher}

/-- One of some nodes is run in its place. -/
theorem CountsAt.set {node : Node} {context : Context} {source : Source} (h : CountsAt watch node context source)
    {nodes : List Node} {place : Nat} (hplace : nodes[place]? = some node) (slot : Slot) (first : Nat) :
    ((watch node context source).under ⟨slot, first + place⟩).Tallies (listed slot first nodes)
      fun tree => listed slot first (nodes.set place tree) :=
  Tally.set hplace h.tallied

theorem CountsAt.alone {node : Node} {context : Context} {source : Source} (h : CountsAt watch node context source)
    (slot : Slot) (i : Nat) :
    ((watch node context source).under ⟨slot, i⟩).Tallies (listed slot i [node]) fun tree => listed slot i [tree] := by
  have hplace : [node][0]? = some node := rfl
  exact h.set hplace slot i

theorem Counts.inOrder (h : Counts Q watch) (slot : Slot) (nodes : List Node) :
    ∀ (i : Nat) (context : Context) (source : Source), (∀ node ∈ nodes, Q node) →
      (inOrder watch slot i nodes context source).Tallies (listed slot i nodes) (listed slot i) := by
  induction nodes with
  | nil =>
    intro i context source _
    exact .unwatched rfl
  | cons node more ih =>
    intro i context source hnodes
    obtain ⟨hnode, hmore⟩ := List.forall_mem_cons.mp hnodes
    have hfirst := (h node context source hnode).alone slot i
    have hapart : (listed slot i [node]).Apart (listed slot (i + 1) more) :=
      Layout.apart_beyond (Nat.le_refl _) fun _ hbranch => (Layout.slot_of_listed hbranch).2
    rw [Layout.listed_cons]
    refine (hfirst.andThen rfl (fun steps context source => ?_) hapart).alter (Layout.listed_cons ..)
    exact (ih (i + 1) context source hmore).alter rfl

theorem Counts.events (h : Counts Q watch) {node : Node} (hnode : Q node) (slot : Slot) (i : Nat) (context : Context)
    (source : Source) :
    (events watch ⟨slot, i⟩ node context source).Tallies (listed slot i [node]) fun tree => listed slot i [tree] :=
  ((h node context source hnode).alone slot i).alter rfl

/-! ### Numbers and repeats -/

theorem Counts.number (h : Counts Q watch) {node : Node} (hnode : Q node) (context : Context) (source : Source) :
    (number watch node context source).Tallies (listed .count 0 [node]) fun tree => listed .count 0 [tree] := by
  cases node with
  | integer text value => exact .unwatched rfl
  | _ =>
    simp only [Watcher.number]
    exact ((h _ context source hnode).alone .count 0).alter rfl

theorem Counts.passes (h : Counts Q watch) (keeps : KeepsShape watch.plain) (hQ : Within P Q)
    (prepare : Source → Source) (context : Context) (times : Nat) :
    ∀ (nodes : List Node) (source : Source), (∀ node ∈ nodes, Q node) →
      (passes watch prepare context times nodes source).Tallies (listed .value 0 nodes) (listed .value 0) := by
  induction times with
  | zero =>
    intro nodes source _
    exact .unwatched rfl
  | succ times ih =>
    intro nodes source hnodes
    have hpass := h.inOrder .value nodes 0 context (prepare source) hnodes
    have hvisits : unplayedAll (watch.inOrder .value 0 nodes context (prepare source)).run.tree = unplayedAll nodes := by
      rw [run_inOrder]
      exact keeps.inOrder nodes context (prepare source)
    refine Tallies.onward (hpass.alter rfl) fun steps => ?_
    exact (ih _ _ (hQ.visitsAll hnodes hvisits)).alter rfl

theorem Counts.repeated (h : Counts Q watch) (keeps : KeepsShape watch.plain) (hQ : Within P Q)
    (prepare : Source → Source) (times : Nat) {nodes : List Node} (context : Context) (source : Source)
    (hnodes : ∀ node ∈ nodes, Q node) :
    (repeated watch prepare times nodes context source).Tallies (listed .value 0 nodes) (listed .value 0) := by
  cases times with
  | zero => exact .unwatched rfl
  | succ times =>
    have hvisits : unplayedAll (watch.passes id context 1 nodes source).run.tree = unplayedAll nodes := by
      rw [run_passes]
      exact keeps.passes id context 1 nodes source
    refine (h.passes keeps hQ id context 1 nodes source hnodes).onward fun steps => ?_
    exact (h.passes keeps hQ prepare context times _ _ (hQ.visitsAll hnodes hvisits)).alter rfl

theorem Counts.repetition (h : Counts Q watch) (keeps : KeepsShape watch.plain) (hQ : Within P Q) (text : String)
    (replayed : Bool) {values : List Node} {count : Node} (context : Context) (source : Source)
    (hvalues : ∀ node ∈ values, Q node) (hcount : Q count) :
    (repetition watch text replayed values count context source).Tallies
      (Node.repetition text replayed values count).layout Node.layout := by
  refine ((h.number hcount context source).andThen rfl (fun times context source => ?_)
    (apart_listed (by decide) 0 0 [count] values)).alter rfl
  by_cases htimes : times ≤ 0
  · rw [if_pos htimes]
    exact .unwatched rfl
  · rw [if_neg htimes]
    cases replayed with
    | false => exact h.repeated keeps hQ id times.toNat context source hvalues
    | true => exact (h.repeated keeps hQ Source.rewind times.toNat context source.record hvalues).alter rfl

/-! ### List operations -/

theorem Counts.operand (h : Counts Q watch) (i : Nat) {right : Option Node} (hright : ∀ node ∈ right, Q node)
    (context : Context) (source : Source) :
    (operand watch i right context source).Tallies (listed .operand i right.toList)
      fun tree => listed .operand i tree.toList := by
  cases right with
  | none => exact .unwatched rfl
  | some node =>
    simp only [Watcher.operand]
    exact (h.events (hright node rfl) .operand i context source).alter rfl

theorem Counts.operation (h : Counts Q watch) (i : Nat) (left : List Event) {step : Operation Node}
    (hstep : ∀ node ∈ step.right?, Q node) (context : Context) (source : Source) :
    (operation watch i left step context source).Tallies (listed .operand i (kept step))
      fun tree => listed .operand i (kept tree) := by
  cases step with
  | map expr => exact .unwatched rfl
  | binary op right =>
    cases op with
    | zip => exact .unwatched rfl
    | _ =>
      simp only [Watcher.operation]
      exact (h.operand i hstep context source).alter rfl

theorem Counts.operationsOn (h : Counts Q watch) (steps : List (Operation Node)) :
    ∀ (i : Nat) (left : List Event) (context : Context) (source : Source),
      (∀ step ∈ steps, ∀ node ∈ step.right?, Q node) →
      (operationsOn watch i left steps context source).Tallies (operands i steps) (operands i) := by
  induction steps with
  | nil =>
    intro i left context source _
    exact .unwatched rfl
  | cons step more ih =>
    intro i left context source hsteps
    obtain ⟨hstep, hmore⟩ := List.forall_mem_cons.mp hsteps
    have hapart : (listed .operand i (kept step)).Apart (operands (i + 1) more) :=
      Layout.apart_beyond (Nat.add_le_add_left (Layout.length_kept_le step) i)
        fun _ hbranch => (Layout.slot_of_operands hbranch).2
    exact ((h.operation i left hstep context source).andThen rfl
      (fun events context source => ih (i + 1) events context source hmore) hapart).alter rfl

/-- Unless it is interleaved, the first list is run in its place. -/
theorem Counts.leftInPlace (h : Counts Q watch) (keeps : KeepsShape watch.plain) (text : String) {left : Node}
    {steps : List (Operation Node)} (hzips : zipsFirst steps = false) (hleft : Q left)
    (hsteps : ∀ step ∈ steps, ∀ node ∈ step.right?, Q node) (context : Context) (source : Source) :
    (((watch.events ⟨.left, 0⟩ left context source).andThen steps fun events context source =>
        watch.operationsOn 0 events steps context source).alter
      (·.withTree fun tree => Node.operations text tree.1 tree.2)).Tallies
        (Node.operations text left steps).layout Node.layout := by
  have hmore := fun events context source => h.operationsOn steps 0 events context source hsteps
  rw [Node.layout_operations hzips]
  refine ((h.events hleft .left 0 context source).andThen rfl hmore (Layout.apart_left_operands [left] 0 steps)).alter
    (Node.layout_operations ?_ ..)
  -- an operation that is not interleaving is not interleaving when it has been run
  rw [run_andThen]
  refine Run.tree_andThen_snd (fun tree => zipsFirst tree = false) hzips fun events context source => ?_
  rw [run_operationsOn, Node.zipsFirst_eq_of_unplayedSteps_eq (keeps.operationsOn steps events context source), hzips]

theorem Counts.operations (h : Counts Q watch) (keeps : KeepsShape watch.plain) (text : String) {left : Node}
    {steps : List (Operation Node)} (hleft : Q left) (hsteps : ∀ step ∈ steps, ∀ node ∈ step.right?, Q node)
    (context : Context) (source : Source) :
    (operations watch text left steps context source).Tallies (Node.operations text left steps).layout
      Node.layout := by
  have hothers (hzips : zipsFirst steps = false) := h.leftInPlace keeps text hzips hleft hsteps context source
  cases steps with
  | nil => exact (hothers rfl).alter rfl
  | cons step more =>
    cases step with
    | map expr => exact (hothers rfl).alter rfl
    | binary op right =>
      cases op with
      | zip =>
        obtain ⟨-, hmore⟩ := List.forall_mem_cons.mp hsteps
        have hrest := fun events context source => h.operationsOn more 1 events context source hmore
        have hzipped : (unwatched (Realizer.zipped watch.plain left.elements right context source)).Tallies .empty
            fun _ => .empty := .unwatched rfl
        rw [Node.layout_zipped, ← Layout.empty_or (operands 1 more)]
        refine ((hzipped.andThen rfl hrest fun _ => .inl rfl).alter ?_).alter rfl
        exact (Node.layout_zipped ..).trans (Layout.empty_or _).symm
      | _ => exact (hothers rfl).alter rfl

/-! ### Lists dealt out -/

theorem Counts.deal (h : Counts Q watch) (slot : Slot) {deck : Realizer.Deck} (hdeck : ∀ node ∈ deck.elements, Q node)
    (source : Source) :
    (deal watch slot deck source).Tallies (listed slot 0 deck.elements) fun deck => listed slot 0 deck.elements := by
  unfold Watcher.deal
  cases hplace : deck.elements[deck.dealt % deck.elements.length]? with
  | none =>
    simp only [hplace]
    exact .unwatched rfl
  | some element =>
    have hrun := (h element deck.context source (hdeck element (List.mem_of_getElem? hplace))).set hplace slot 0
    rw [Nat.zero_add] at hrun
    simp only [hplace]
    exact hrun.alter rfl

/-- The lists of a rhythm. -/
def decks (decks : Realizer.Deck × Realizer.Deck) : Layout :=
  (listed .onset 0 decks.1.elements).or (listed .offset 0 decks.2.elements)

theorem Counts.beat (h : Counts Q watch) (silence : Step) (hit : Bool) {on off : Realizer.Deck}
    (hon : ∀ node ∈ on.elements, Q node) (hoff : ∀ node ∈ off.elements, Q node) (source : Source) :
    (beat watch silence hit on off source).Tallies (decks (on, off)) decks := by
  have hapart : (listed .onset 0 on.elements).Apart (listed .offset 0 off.elements) :=
    apart_listed (by decide) 0 0 on.elements off.elements
  unfold Watcher.beat
  cases hit with
  | true =>
    simp only [if_true]
    exact ((h.deal .onset hon source).beside hapart).alter rfl
  | false =>
    simp only [Bool.false_eq_true, if_false]
    by_cases hempty : off.elements.isEmpty
    · rw [if_pos hempty]
      exact .unwatched rfl
    · rw [if_neg hempty]
      exact ((h.deal .offset hoff source).besides hapart).alter rfl

theorem Counts.dealt (h : Counts Q watch) (keeps : KeepsShape watch.plain) (hQ : Within P Q) (silence : Step)
    (rhythm : List Bool) :
    ∀ (on off : Realizer.Deck) (source : Source), (∀ node ∈ on.elements, Q node) → (∀ node ∈ off.elements, Q node) →
      (dealt watch silence rhythm on off source).Tallies (decks (on, off)) decks := by
  induction rhythm with
  | nil =>
    intro on off source _ _
    exact .unwatched rfl
  | cons hit more ih =>
    intro on off source hon hoff
    obtain ⟨hvisitsOn, hvisitsOff⟩ := keeps.beat silence hit on off source
    rw [← run_beat] at hvisitsOn hvisitsOff
    refine (h.beat silence hit hon hoff source).onward fun steps => ?_
    exact (ih _ _ _ (hQ.visitsAll hon hvisitsOn) (hQ.visitsAll hoff hvisitsOff)).alter rfl

/-- The elements of the second list; none without one. -/
def elementsOption (offset : Option Node) : List Node := (offset.map Node.elements).getD []

theorem elements_offset (offset : Option Node) (context : Context) :
    ((offset.map (Realizer.Deck.ofList · context)).getD ⟨[], 0, context⟩).elements = elementsOption offset := by
  cases offset <;> rfl

theorem within_elementsOption (hQ : Within P Q) {offset : Option Node} (hoffset : ∀ node ∈ offset, Q node) :
    ∀ node ∈ elementsOption offset, Q node := by
  intro node hnode
  cases offset with
  | none => cases hnode
  | some offset => exact hQ.elements (hoffset offset rfl) node hnode

/-- What is dealt out is what is on the branches when the lists are put back together. -/
theorem layout_dealt {onset : Node} {offset : Option Node} {on off : Realizer.Deck}
    (hon : unplayedAll on.elements = unplayedAll onset.elements)
    (hoff : unplayedAll off.elements = unplayedAll (elementsOption offset)) (text : String) (pulses length : Nat)
    (rotate : Int) :
    (Node.euclid text pulses length rotate (Realizer.withElements onset on.elements)
        (offset.map (Realizer.withElements · off.elements))).layout = decks (on, off) := by
  have honset := Realizer.elements_withElements hon
  cases offset with
  | none =>
    have hempty : off.elements = [] := by simpa [elementsOption, Node.unplayedAll_eq_map] using hoff
    simp only [Node.layout, decks, honset, hempty, Option.map_none, Option.getD_none]
  | some offset =>
    have hoffset : (Realizer.withElements offset off.elements).elements = off.elements :=
      Realizer.elements_withElements hoff
    simp only [Node.layout, decks, honset, hoffset, Option.map_some, Option.getD_some]

theorem Counts.euclid (h : Counts Q watch) (keeps : KeepsShape watch.plain) (hQ : Within P Q) (text : String)
    (pulses length : Nat) (rotate : Int) {onset : Node} {offset : Option Node} (honset : Q onset)
    (hoffset : ∀ node ∈ offset, Q node) (context : Context) (source : Source) :
    (euclid watch text pulses length rotate onset offset context source).Tallies
      (Node.euclid text pulses length rotate onset offset).layout Node.layout := by
  unfold Watcher.euclid
  by_cases hempty : onset.elements.isEmpty
  · rw [if_pos hempty]
    exact .unwatched rfl
  · rw [if_neg hempty]
    generalize Step.ready (.rest { text := "r", duration := some context.options.duration }) = silence
    have helements := elements_offset offset context
    have hnodes := within_elementsOption hQ hoffset
    rw [← helements] at hnodes
    generalize (offset.map (Realizer.Deck.ofList · context)).getD ⟨[], 0, context⟩ = off at helements hnodes ⊢
    obtain ⟨hvisitsOn, hvisitsOff⟩ := keeps.dealt silence (Rhythm.euclidean pulses length rotate)
      (Realizer.Deck.ofList onset context) off source
    rw [← run_dealt] at hvisitsOn hvisitsOff
    rw [helements] at hvisitsOff
    have hrun := h.dealt keeps hQ silence (Rhythm.euclidean pulses length rotate) (Realizer.Deck.ofList onset context)
      off source (hQ.elements honset) hnodes
    have hlayout : decks (Realizer.Deck.ofList onset context, off) =
        (Node.euclid text pulses length rotate onset offset).layout := by
      unfold decks
      rw [helements]
      rfl
    rw [← hlayout]
    exact hrun.alter (layout_dealt hvisitsOn hvisitsOff text pulses length rotate)

/-! ### Cycles and assignments -/

theorem Counts.visit (h : Counts Q watch) (text : String) {values : List Node} (hvalues : ∀ node ∈ values, Q node)
    (visits : Nat) (context : Context) (source : Source) :
    (visit watch text values visits context source).Tallies (Node.cycle text values visits).layout Node.layout := by
  unfold Watcher.visit
  cases hplace : values[visits % values.length]? with
  | none =>
    simp only [hplace]
    exact .unwatched rfl
  | some value =>
    have hrun := (h value context source (hvalues value (List.mem_of_getElem? hplace))).set hplace .value 0
    rw [Nat.zero_add] at hrun
    simp only [hplace]
    exact hrun.alter rfl

theorem Counts.assignment (h : Counts Q watch) (text name : String) (eager : Bool) {value : Node} (hvalue : Q value)
    (context : Context) (source : Source) :
    (assignment watch text name eager value context source).Tallies (Node.assignment text name eager value).layout
      Node.layout := by
  unfold Watcher.assignment
  cases eager with
  | false => exact .unwatched rfl
  | true =>
    have hrun := h.events hvalue .stored 0 context source
    simp only [if_true]
    refine hrun.alter ?_
    cases (Watcher.events watch ⟨.stored, 0⟩ value context source).run.result <;> rfl

theorem counted_of_not_cycle {node : Node} (h : node.isCycle = false) (later : Node) (visits : List Path) :
    Counted node later visits := by
  rintro text values start rfl
  cases h

/-- A cycle counts one visit, and runs the value whose turn it is. -/
theorem Counts.visit_counted (h : Counts Q watch) (keeps : KeepsShape watch.plain) (text : String) {values : List Node}
    (hvalues : ∀ node ∈ values, Q node) (start : Nat) (context : Context) (source : Source) :
    Counted (.cycle text values start) (watch.visit text values start context source).run.tree
      ([] :: (watch.visit text values start context source).visits) := by
  rintro _ _ _ ⟨⟩ hsome
  have hlt : start % values.length < values.length := Nat.mod_lt _ (List.length_pos_iff.mpr hsome)
  have hplace := List.getElem?_eq_getElem hlt
  generalize values[start % values.length] = value at hplace
  have hproper := (h value context source (hvalues value (List.mem_of_getElem? hplace))).proper
  simp only [Watcher.visit, hplace, Watched.alter, Watched.under, count_one]
  exact ⟨⟨_, rfl, Realizer.unplayedAll_set hplace (keeps value context source)⟩, nearest_one hproper _⟩

/-! ### One level, and a whole tree -/

/-- One level accounts for the nodes of `P` if the level below does for the nodes inside them. -/
theorem Counts.level {inner : Watcher} (h : Counts Q inner) (keeps : KeepsShape inner.plain) (hQ : Within P Q)
    (stored : Realizer) : Counts P (inner.level stored) := by
  intro node context source hnode
  have hchildren := hQ.children hnode
  have hwhole (hown : Counted node (inner.level stored node context source).run.tree
        ([] :: (inner.level stored node context source).visits))
      (htally : (inner.level stored node context source).Tallies node.layout Node.layout) :
      CountsAt (inner.level stored) node context source :=
    ⟨htally.proper, tallied_of_tally hown htally⟩
  cases node with
  | sequence text overrides isList values =>
    exact hwhole (counted_of_not_cycle rfl _ _)
      ((h.inOrder .value values 0 (context.inside overrides) source hchildren).alter rfl)
  | cycle text values visits =>
    exact hwhole (h.visit_counted keeps text hchildren visits context source) (h.visit text hchildren visits context source)
  | subdivision text overrides values =>
    exact hwhole (counted_of_not_cycle rfl _ _)
      ((h.inOrder .value values 0 (context.inside overrides) source hchildren).alter rfl)
  | repetition text replayed values count =>
    obtain ⟨hcount, hvalues⟩ := List.forall_mem_cons.mp hchildren
    exact hwhole (counted_of_not_cycle rfl _ _) (h.repetition keeps hQ text replayed context source hvalues hcount)
  | operations text left steps =>
    obtain ⟨hleft, hrights⟩ := List.forall_mem_cons.mp hchildren
    refine hwhole (counted_of_not_cycle rfl _ _) (h.operations keeps text hleft ?_ context source)
    intro step hstep right hright
    exact hrights right (List.mem_filterMap.mpr ⟨step, hstep, hright⟩)
  | euclid text pulses length rotate onset offset =>
    obtain ⟨honset, hoffset⟩ := List.forall_mem_cons.mp hchildren
    refine hwhole (counted_of_not_cycle rfl _ _)
      (h.euclid keeps hQ text pulses length rotate honset ?_ context source)
    intro node hnode
    exact hoffset node (Option.mem_toList.mpr hnode)
  | assignment text name eager value =>
    exact hwhole (counted_of_not_cycle rfl _ _)
      (h.assignment text name eager (hchildren value (List.mem_singleton.mpr rfl)) context source)
  | _ => exact hwhole (counted_of_not_cycle rfl _ _) (.unwatched rfl)

theorem counts_toDepth (stored : Realizer) (depth : Nat) :
    Counts (fun node => node.depth ≤ depth) (toDepth stored depth) := by
  induction depth with
  | zero =>
    intro node context source hnode
    exact absurd node.depth_pos (Nat.not_lt.mpr hnode)
  | succ depth ih =>
    have hplain : KeepsShape (toDepth stored depth).plain := by
      rw [plain_toDepth]
      exact Realizer.keepsShape_toDepth stored depth
    exact ih.level hplain (Realizer.within_depth depth) stored

end Watcher

/-- The logs account for every node. -/
theorem counts_watch : Watcher.Counts (fun _ => True) watch := by
  intro node context source _
  obtain ⟨hproper, htallied⟩ := Watcher.counts_toDepth (Realizer.nested (nestingLimit - 1)) node.depth node context source
    (Nat.le_refl _)
  exact ⟨hproper, htallied⟩

/-- **The log of an evaluation accounts for everything in the tree**: what is
    not visited stays as it is, and cycles count their visits. -/
theorem watchAll_tallies (nodes : List Node) (context : Context) (source : Source) :
    (watchAll nodes context source).Tallies (listed .value 0 nodes) (listed .value 0) :=
  (counts_watch.inOrder .value nodes 0 context source fun _ _ => trivial).alter rfl

end NumberedMelody
