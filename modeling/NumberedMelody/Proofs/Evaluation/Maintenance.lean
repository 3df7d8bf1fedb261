/-
  NumberedMelody/Proofs/Evaluation/Maintenance.lean
  =================================================
  **Whole runs maintain what every rule respects.**  The ways of running nodes
  inside another node are taken one by one, for any realizer that maintains the
  invariant on the nodes it runs; trees of any depth follow, and variables that
  stand for one another (`realize_maintains`, `evaluate_maintains`).
-/
import NumberedMelody.Proofs.Evaluation.Invariant
import NumberedMelody.Proofs.Harmony.Steps

namespace NumberedMelody

open NumberedMelody.Random (Source)
open Node (unplayedAll)

namespace Realizer

/-- Nodes that the invariant admits are run within what it allows. -/
def Maintains (I : Invariant) (realize : Realizer) : Prop :=
  ∀ n node context source, I.Admits node → I.Allows context → I.source n source →
    (realize node context source).Obeys I n I.Steps

variable {I : Invariant} {realize : Realizer} {n : Nat}

/-! ### Nodes in order -/

theorem Maintains.inOrder (h : Maintains I realize) (nodes : List Node) :
    ∀ (context : Context) (source : Source), (∀ node ∈ nodes, I.Admits node) → I.Allows context →
      I.source n source → (inOrder realize nodes context source).Obeys I n I.Steps := by
  induction nodes with
  | nil =>
    intro context source _ hcontext hsource
    exact .yielded hcontext hsource Invariant.steps_nil
  | cons node more ih =>
    intro context source hnodes hcontext hsource
    have hnode := h n node context source (hnodes node (List.mem_cons_self ..)) hcontext hsource
    refine (hnode.andThen more ?_).withTree _
    intro steps context source hsteps hcontext hsource
    exact (ih context source (fun node hnode => hnodes node (List.mem_cons_of_mem _ hnode)) hcontext hsource).behind
      hsteps

theorem Maintains.events (h : Maintains I realize) (hI : I.Kept) {node : Node} {context : Context}
    {source : Source} (hnode : I.Admits node) (hcontext : I.Allows context) (hsource : I.source n source) :
    (events realize node context source).Obeys I n I.Events :=
  ((h n node context source hnode hcontext hsource).withResult
    fun _ hsteps _ hevents => Invariant.events_of_assignDurations hI hsteps hevents).back hcontext

theorem Maintains.eventsInOrder (h : Maintains I realize) (hI : I.Kept) {nodes : List Node} {context : Context}
    {source : Source} (hnodes : ∀ node ∈ nodes, I.Admits node) (hcontext : I.Allows context)
    (hsource : I.source n source) : (eventsInOrder realize nodes context source).Obeys I n I.Events :=
  ((h.inOrder nodes context source hnodes hcontext hsource).withResult
    fun _ hsteps _ hevents => Invariant.events_of_assignDurations hI hsteps hevents).back hcontext

/-! ### Numbers and repeats -/

theorem Maintains.number (h : Maintains I realize) {node : Node} {context : Context} {source : Source}
    (hnode : I.Admits node) (hcontext : I.Allows context) (hsource : I.source n source) :
    (number realize node context source).Obeys I n fun _ => True := by
  cases node with
  | integer text value => exact .yielded hcontext hsource trivial
  | _ => exact ((h n _ context source hnode hcontext hsource).withResult fun _ _ _ _ => trivial).back hcontext

theorem Maintains.passes (h : Maintains I realize) (keeps : KeepsShape realize) (hI : I.Kept)
    {prepare : Source → Source} (hprepare : ∀ source, I.source n source → I.source n (prepare source))
    {context : Context} (hcontext : I.Allows context) (times : Nat) :
    ∀ (nodes : List Node) (source : Source), (∀ node ∈ nodes, I.Admits node) → I.source n source →
      (passes realize prepare context times nodes source).Obeys I n I.Steps := by
  induction times with
  | zero =>
    intro nodes source _ hsource
    exact .yielded hcontext hsource Invariant.steps_nil
  | succ times ih =>
    intro nodes source hnodes hsource
    have hpass := (h.inOrder nodes context _ hnodes hcontext (hprepare source hsource)).back hcontext
    have hshape := keeps.inOrder nodes context (prepare source)
    rw [passes_succ]
    refine hpass.onward fun steps hsteps => ?_
    exact (ih _ _ (Invariant.Admits.of_unplayedAll_eq hI hnodes hshape) hpass.source).behind hsteps

theorem Maintains.repeated (h : Maintains I realize) (keeps : KeepsShape realize) (hI : I.Kept)
    {prepare : Source → Source} (hprepare : ∀ source, I.source n source → I.source n (prepare source))
    (times : Nat) {nodes : List Node} {context : Context} {source : Source} (hnodes : ∀ node ∈ nodes, I.Admits node)
    (hcontext : I.Allows context) (hsource : I.source n source) :
    (repeated realize prepare times nodes context source).Obeys I n I.Steps := by
  cases times with
  | zero => exact .yielded hcontext hsource Invariant.steps_nil
  | succ times =>
    have hpass : (Realizer.passes realize id context 1 nodes source).Obeys I n I.Steps :=
      h.passes keeps hI (fun _ hsource => hsource) hcontext 1 nodes source hnodes hsource
    have hshape := keeps.passes id context 1 nodes source
    rw [repeated_succ]
    refine hpass.onward fun steps hsteps => ?_
    exact (h.passes keeps hI hprepare hcontext times _ _ (Invariant.Admits.of_unplayedAll_eq hI hnodes hshape)
      hpass.source).behind hsteps

theorem Maintains.repetition (h : Maintains I realize) (keeps : KeepsShape realize) (hI : I.Kept) (text : String)
    (replayed : Bool) {values : List Node} {count : Node} {context : Context} {source : Source}
    (hvalues : ∀ node ∈ values, I.Admits node) (hcount : I.Admits count) (hcontext : I.Allows context)
    (hsource : I.source n source) :
    (repetition realize text replayed values count context source).Obeys I n I.Steps := by
  unfold Realizer.repetition
  refine ((h.number hcount hcontext hsource).andThen values ?_).withTree _
  intro times context source _ hcontext hsource
  by_cases htimes : times ≤ 0
  · simp only [if_pos htimes]
    exact .yielded hcontext hsource Invariant.steps_nil
  · cases replayed with
    | false =>
      simp only [if_neg htimes]
      exact h.repeated keeps hI (fun _ hsource => hsource) times.toNat hvalues hcontext hsource
    | true =>
      simp only [if_neg htimes, if_true]
      have hrun := h.repeated keeps hI (fun _ hsource => hI.rewind hsource) times.toNat hvalues hcontext
        (hI.record hsource)
      exact ⟨hrun.context, hI.finish hrun.source, hrun.result⟩

/-! ### List operations -/

/-- An operation whose operand may be run and whose operator may be applied. -/
structure Applies (I : Invariant) (step : Operation Node) : Prop where
  right : ∀ node ∈ step.right?, I.Admits node
  operator : ∀ op right, step = .binary op right → I.operator op

theorem Applies.of_mem (hI : I.Kept) {text : String} {left : Node} {steps : List (Operation Node)}
    (h : I.Admits (.operations text left steps)) : ∀ step ∈ steps, Applies I step := by
  intro step hstep
  refine ⟨?_, ?_⟩
  · intro node hnode
    exact h.inside node (List.mem_cons_of_mem _ (List.mem_filterMap.mpr ⟨step, hstep, hnode⟩))
  · rintro op right rfl
    exact hI.operators h.here hstep

theorem combine_events (hI : I.Kept) {op : Arithmetic} {options : Options} {left right events : List Event}
    (hoptions : I.options options) (hop : I.operator (.arithmetic op)) (hleft : I.Events left)
    (hright : I.Events right) (h : ListArithmetic.combine op options left right = .ok events) : I.Events events := by
  obtain ⟨rows, hrows, hevents⟩ := bind_eq_ok.mp h
  obtain rfl := Except.ok.inj hevents
  intro e he
  obtain ⟨row, hrow, he⟩ := List.mem_flatten.mp he
  obtain ⟨r, hr, hrow⟩ := mem_of_mapM_eq_ok hrows row hrow
  obtain ⟨l, hl, hpair⟩ := mem_of_mapM_eq_ok hrow e he
  obtain ⟨hl, hlpitched⟩ := List.mem_filter.mp hl
  obtain ⟨hr, hrpitched⟩ := List.mem_filter.mp hr
  exact hI.combined hoptions hop hlpitched hrpitched (hleft l hl) (hright r hr) hpair

theorem vertical_events (hI : I.Kept) {left indices : List Event} (hop : I.operator .vertical)
    (hleft : I.Events left) (hindices : I.Events indices) : I.Events (ListArithmetic.vertical left indices) := by
  intro e he
  obtain ⟨tones, htones, he⟩ := List.mem_flatMap.mp he
  obtain ⟨i, hi, he⟩ := List.mem_flatMap.mp he
  obtain ⟨htones, hsome⟩ := List.mem_filter.mp htones
  obtain ⟨l, hl, rfl⟩ := List.mem_map.mp htones
  have hne : ListArithmetic.tonesOf l ≠ [] := by simpa using hsome
  exact hI.vertical hop hne (hleft l hl) (hindices i hi) he

theorem horizontal_events (hI : I.Kept) {pool indices : List Event} (hop : I.operator .horizontal)
    (hpool : I.Events pool) (hindices : I.Events indices) : I.Events (ListArithmetic.horizontal pool indices) := by
  intro e he
  unfold ListArithmetic.horizontal at he
  split at he
  · cases he
  · obtain ⟨i, hi, he⟩ := List.mem_flatMap.mp he
    exact hI.horizontal hop hpool (hindices i hi) he

theorem Maintains.zipped (h : Maintains I realize) (hI : I.Kept) {left : List Node} {right : Option Node}
    {context : Context} {source : Source} (hleft : ∀ node ∈ left, I.Admits node)
    (hright : ∀ node ∈ right, I.Admits node) (hcontext : I.Allows context) (hsource : I.source n source) :
    (zipped realize left right context source).Obeys I n I.Events := by
  unfold Realizer.zipped
  refine (h.eventsInOrder hI ?_ hcontext hsource).withTree _
  intro node hnode
  rcases mem_or_mem_of_mem_interleave hnode with hmem | hmem
  · exact hleft node hmem
  · cases right with
    | none => simp at hmem
    | some right => exact (hright right rfl).elements node hmem

theorem Maintains.operand (h : Maintains I realize) (hI : I.Kept) {right : Option Node} {context : Context}
    {source : Source} (hright : ∀ node ∈ right, I.Admits node) (hcontext : I.Allows context)
    (hsource : I.source n source) : (operand realize right context source).Obeys I n I.Events := by
  cases right with
  | none => exact .yielded hcontext hsource fun e he => by cases he
  | some node => exact (h.events hI (hright node rfl) hcontext hsource).withTree _

theorem Maintains.operation (h : Maintains I realize) (hI : I.Kept) {left : List Event} {step : Operation Node}
    {context : Context} {source : Source} (hleft : I.Events left) (hstep : Applies I step)
    (hcontext : I.Allows context) (hsource : I.source n source) :
    (operation realize left step context source).Obeys I n I.Events := by
  cases step with
  | map expr =>
    refine ⟨hcontext, hsource, ?_⟩
    intro events hevents e he
    obtain ⟨e', he', hmap⟩ := mem_of_mapM_eq_ok hevents e he
    exact hI.mapped hcontext.options (hleft e' he') hmap
  | binary op right =>
    have hop := hstep.operator op right rfl
    have hright : ∀ node ∈ right, I.Admits node := hstep.right
    have hoperand := h.operand hI hright hcontext hsource
    cases op with
    | zip =>
      simp only [Realizer.operation]
      refine (h.zipped hI ?_ hright hcontext hsource).withTree _
      intro node hnode
      obtain ⟨e, he, rfl⟩ := List.mem_map.mp hnode
      exact Invariant.Admits.event hI (hleft e he)
    | vertical =>
      refine (hoperand.withTree _).withResult ?_
      intro indices hindices events hevents
      obtain rfl := Except.ok.inj hevents
      exact vertical_events hI hop hleft hindices
    | horizontal =>
      refine (hoperand.withTree _).withResult ?_
      intro indices hindices events hevents
      obtain rfl := Except.ok.inj hevents
      exact horizontal_events hI hop hleft hindices
    | arithmetic op =>
      refine (hoperand.withTree _).withResult ?_
      intro rights hrights events hevents
      exact combine_events hI hcontext.options hop hleft hrights hevents

theorem Maintains.operationsOn (h : Maintains I realize) (hI : I.Kept) (steps : List (Operation Node)) :
    ∀ (left : List Event) (context : Context) (source : Source), I.Events left → (∀ step ∈ steps, Applies I step) →
      I.Allows context → I.source n source →
      (operationsOn realize left steps context source).Obeys I n I.Events := by
  induction steps with
  | nil =>
    intro left context source hleft _ hcontext hsource
    exact .yielded hcontext hsource hleft
  | cons step more ih =>
    intro left context source hleft hsteps hcontext hsource
    have hstep := h.operation hI hleft (hsteps step (List.mem_cons_self ..)) hcontext hsource
    refine (hstep.andThen more ?_).withTree _
    intro events context source hevents hcontext hsource
    exact ih events context source hevents (fun step hstep => hsteps step (List.mem_cons_of_mem _ hstep)) hcontext
      hsource

theorem Maintains.operations (h : Maintains I realize) (hI : I.Kept) {text : String} {left : Node}
    {steps : List (Operation Node)} {context : Context} {source : Source}
    (hnode : I.Admits (.operations text left steps)) (hcontext : I.Allows context) (hsource : I.source n source) :
    (operations realize text left steps context source).Obeys I n I.Steps := by
  have hleft : I.Admits left := hnode.inside left (List.mem_cons_self ..)
  have hsteps := Applies.of_mem hI hnode
  have hready : ∀ events, I.Events events → ∀ all, .ok (events.map .ready) = (.ok all : Except Failure (List Step)) →
      I.Steps all := by
    intro events hevents all hall
    obtain rfl := Except.ok.inj hall
    exact Invariant.steps_map_ready hevents
  unfold Realizer.operations
  suffices hrun : Run.Obeys I n I.Events _ from hrun.withResult hready
  split
  · next right more =>
    have hzip := h.zipped hI (hleft.elements) (hsteps _ (List.mem_cons_self ..)).right hcontext
      hsource
    refine (hzip.andThen more ?_).withTree _
    intro events context source hevents hcontext hsource
    exact h.operationsOn hI more events context source hevents
      (fun step hstep => hsteps step (List.mem_cons_of_mem _ hstep)) hcontext hsource
  · refine ((h.events hI hleft hcontext hsource).andThen steps ?_).withTree _
    intro events context source hevents hcontext hsource
    exact h.operationsOn hI steps events context source hevents hsteps hcontext hsource

/-! ### Lists dealt out -/

/-- A deck of nodes that may be run, in a context that they may be run in. -/
structure Deals (I : Invariant) (deck : Deck) : Prop where
  elements : ∀ node ∈ deck.elements, I.Admits node
  context : I.Allows deck.context

theorem Maintains.deal (h : Maintains I realize) (keeps : KeepsShape realize) (hI : I.Kept) {deck : Deck}
    {source : Source} (hdeck : Deals I deck) (hsource : I.source n source) :
    (deck.deal realize source).Obeys I n I.Steps ∧ Deals I (deck.deal realize source).tree := by
  have hshape := keeps.deal deck source
  have helements := Invariant.Admits.of_unplayedAll_eq hI hdeck.elements hshape
  unfold Deck.deal at helements ⊢
  cases hplace : deck.elements[deck.dealt % deck.elements.length]? with
  | none =>
    simp only [hplace]
    exact ⟨.yielded hdeck.context hsource Invariant.steps_nil, hdeck⟩
  | some element =>
    simp only [hplace] at helements ⊢
    have hrun := h n element deck.context source (hdeck.elements element (List.mem_of_getElem? hplace)) hdeck.context
      hsource
    exact ⟨hrun.withTree _, helements, hrun.context⟩

theorem Maintains.beat (h : Maintains I realize) (keeps : KeepsShape realize) (hI : I.Kept) {silence : Step}
    (hsilence : I.Steps [silence]) (hit : Bool) {on off : Deck} {source : Source} (hon : Deals I on)
    (hoff : Deals I off) (hsource : I.source n source) :
    (beat realize silence hit on off source).Obeys I n I.Steps ∧
      Deals I (beat realize silence hit on off source).tree.1 ∧
      Deals I (beat realize silence hit on off source).tree.2 := by
  unfold Realizer.beat
  cases hit with
  | true =>
    obtain ⟨hrun, hdeck⟩ := h.deal keeps hI hon hsource
    simp only [if_true]
    exact ⟨hrun.withTree _, hdeck, hoff⟩
  | false =>
    simp only [Bool.false_eq_true, if_false]
    by_cases hempty : off.elements.isEmpty
    · simp only [if_pos hempty]
      exact ⟨.yielded hon.context hsource hsilence, hon, hoff⟩
    · simp only [if_neg hempty]
      obtain ⟨hrun, hdeck⟩ := h.deal keeps hI hoff hsource
      exact ⟨hrun.withTree _, hon, hdeck⟩

theorem Maintains.dealt (h : Maintains I realize) (keeps : KeepsShape realize) (hI : I.Kept) {silence : Step}
    (hsilence : I.Steps [silence]) (rhythm : List Bool) :
    ∀ (on off : Deck) (source : Source), Deals I on → Deals I off → I.source n source →
      (dealt realize silence rhythm on off source).Obeys I n I.Steps := by
  induction rhythm with
  | nil =>
    intro on off source hon _ hsource
    exact .yielded hon.context hsource Invariant.steps_nil
  | cons hit more ih =>
    intro on off source hon hoff hsource
    obtain ⟨hbeat, hon', hoff'⟩ := h.beat keeps hI hsilence hit hon hoff hsource
    rw [dealt_cons]
    exact hbeat.onward fun steps hsteps => (ih _ _ _ hon' hoff' hbeat.source).behind hsteps

theorem Deals.ofList (hI : I.Kept) {node : Node} {context : Context} (hnode : I.Admits node)
    (hcontext : I.Allows context) : Deals I (Deck.ofList node context) :=
  ⟨hnode.elements, hcontext.insideList hI hnode.here⟩

theorem Maintains.euclid (h : Maintains I realize) (keeps : KeepsShape realize) (hI : I.Kept) (text : String)
    (pulses length : Nat) (rotate : Int) {onset : Node} {offset : Option Node} {context : Context} {source : Source}
    (honset : I.Admits onset) (hoffset : ∀ node ∈ offset, I.Admits node) (hcontext : I.Allows context)
    (hsource : I.source n source) :
    (euclid realize text pulses length rotate onset offset context source).Obeys I n I.Steps := by
  unfold Realizer.euclid
  by_cases hempty : onset.elements.isEmpty
  · simp only [if_pos hempty]
    exact .failed hcontext hsource
  · simp only [if_neg hempty]
    have hoff : Deals I ((offset.map (Deck.ofList · context)).getD ⟨[], 0, context⟩) := by
      cases offset with
      | none => exact ⟨fun node hnode => (by cases hnode), hcontext⟩
      | some offset => exact .ofList hI (hoffset offset rfl) hcontext
    have hsilence := Invariant.steps_ready (hI.silence "r" context.options.duration)
    exact ((h.dealt keeps hI hsilence _ _ _ source (.ofList hI honset hcontext) hoff hsource).back hcontext).withTree _

/-! ### Variables -/

theorem Maintains.use (h : Maintains I realize) (hI : I.Kept) (name text : String) {context : Context}
    {source : Source} (hcontext : I.Allows context) (hsource : I.source n source) :
    (use realize name text context source).Obeys I n I.Steps := by
  unfold Realizer.use
  cases hstored : context.stored.lookup name with
  | some node => exact (h n node context source (hcontext.lookup hstored) hcontext hsource).withTree _
  | none =>
    refine ⟨hcontext, hsource, ?_⟩
    intro steps hsteps
    dsimp only at hsteps
    split at hsteps
    · obtain rfl := Except.ok.inj hsteps
      exact Invariant.steps_ready (hI.sample _ _ _)
    · obtain rfl := Except.ok.inj hsteps
      exact Invariant.steps_ready (hI.function _ _ _)
    · cases hsteps

theorem Maintains.layers (h : Maintains I realize) (hI : I.Kept) {context : Context} (hcontext : I.Allows context)
    (names : List String) :
    ∀ source : Source, I.source n source →
      (layers realize context names source).Obeys I n fun layers => ∀ layer ∈ layers, I.Events layer := by
  induction names with
  | nil =>
    intro source hsource
    exact .yielded hcontext hsource fun layer hlayer => by cases hlayer
  | cons name more ih =>
    intro source hsource
    have hrun : (((Realizer.use realize name name context source).withResult assignDurations).back context).Obeys I n
        I.Events :=
      ((h.use hI name name hcontext hsource).withResult
        fun _ hsteps _ hevents => Invariant.events_of_assignDurations hI hsteps hevents).back hcontext
    unfold Realizer.layers
    cases hresult : (((Realizer.use realize name name context source).withResult assignDurations).back context).result with
    | error failure =>
      simp only [hresult]
      exact .failed hcontext hrun.source
    | ok layer =>
      simp only [hresult]
      refine (ih _ hrun.source).withResult ?_
      intro others hothers all hall
      obtain rfl := Except.ok.inj hall
      intro other hother
      rcases List.mem_cons.mp hother with rfl | hother
      · exact hrun.result _ hresult
      · exact hothers other hother

/-! ### One level, and a whole tree -/

theorem Maintains.visit (h : Maintains I realize) (text : String) {values : List Node} (visits : Nat)
    {context : Context} {source : Source} (hvalues : ∀ node ∈ values, I.Admits node) (hcontext : I.Allows context)
    (hsource : I.source n source) : (visit realize text values visits context source).Obeys I n I.Steps := by
  unfold Realizer.visit
  cases hplace : values[visits % values.length]? with
  | none =>
    simp only [hplace]
    exact .yielded hcontext hsource Invariant.steps_nil
  | some value =>
    simp only [hplace]
    exact (h n value context source (hvalues value (List.mem_of_getElem? hplace)) hcontext hsource).withTree _

theorem Maintains.assignment (h : Maintains I realize) (hI : I.Kept) (text name : String) (eager : Bool)
    {value : Node} {context : Context} {source : Source} (hvalue : I.Admits value) (hcontext : I.Allows context)
    (hsource : I.source n source) :
    (assignment realize text name eager value context source).Obeys I n I.Steps := by
  unfold Realizer.assignment
  cases eager with
  | false => exact .yielded (hcontext.assign hvalue name) hsource Invariant.steps_nil
  | true =>
    have hrun := h.events hI hvalue hcontext hsource
    simp only [if_true]
    cases hresult : (Realizer.events realize value context source).result with
    | error failure =>
      simp only
      exact .failed hcontext hrun.source
    | ok played =>
      simp only
      have hlist := Invariant.Admits.list hI (hrun.result played hresult) value.text
      exact .yielded (hcontext.assign hlist name) hrun.source Invariant.steps_nil

/-- **One level maintains what the levels below it maintain.** -/
theorem Maintains.level {inner stored : Realizer} (h : Maintains I inner) (hstored : Maintains I stored)
    (keeps : KeepsShape inner) (hI : I.Kept) : Maintains I (level inner stored) := by
  intro n node context source hnode hcontext hsource
  have hinside := hnode.inside
  cases node with
  | blank text => exact .yielded hcontext hsource Invariant.steps_nil
  | bar text => exact .yielded hcontext.nextMeasure hsource Invariant.steps_nil
  | change text change => exact .yielded (hcontext.after hI change) hsource Invariant.steps_nil
  | event e => exact .yielded hcontext hsource (Invariant.steps_ready (hI.against hnode.here hcontext.options))
  | numeral k =>
    refine ⟨hcontext, hsource, ?_⟩
    intro steps hsteps
    obtain ⟨c, hc, rfl⟩ := map_eq_ok.mp hsteps
    obtain ⟨options, hchord⟩ := KeptNumeral.exists_chordFor_of_play hc
    exact Invariant.steps_ready (hI.numeral hnode.here hchord)
  | randomPitch text overrides =>
    have hdegree := Random.Source.index_lt
      ((overrides.apply context.options).scale.getD (.named Scale.ionian)).size_pos source
    exact .yielded hcontext (hI.index hnode.here hsource _) (Invariant.steps_ready
      (hI.generated hnode.here hcontext.options ⟨Int.natCast_nonneg _, Int.ofNat_lt.mpr hdegree⟩ _))
  | randomInteger text overrides low high =>
    exact .yielded hcontext (hI.integer hnode.here hsource) (Invariant.steps_ready
      (hI.generated hnode.here hcontext.options (Random.between_bounds low high source.draw.1) _))
  | integer text value =>
    exact .yielded hcontext hsource (Invariant.steps_ready (hI.generated hnode.here hcontext.options rfl _))
  | range text overrides first last =>
    refine .yielded hcontext hsource ?_
    intro step hstep
    obtain ⟨p, hp, rfl⟩ := List.mem_map.mp hstep
    obtain ⟨degree, hdegree, rfl⟩ := List.mem_map.mp hp
    exact .ready (hI.generated hnode.here hcontext.options hdegree _)
  | expression text overrides expr =>
    refine ⟨hcontext, hsource, ?_⟩
    intro steps hsteps
    obtain ⟨value, -, rfl⟩ := map_eq_ok.mp hsteps
    exact Invariant.steps_ready (hI.generated hnode.here hcontext.options ⟨value, rfl⟩ _)
  | sequence text overrides isList values =>
    exact ((h.inOrder values _ source hinside (hcontext.inside hI hnode.here) hsource).back hcontext).withTree _
  | cycle text values visits => exact h.visit text visits hinside hcontext hsource
  | subdivision text overrides values =>
    refine (((h.inOrder values _ source hinside (hcontext.inside hI hnode.here) hsource).withResult ?_).back
      hcontext).withTree _
    intro steps hsteps all hall
    obtain rfl := Except.ok.inj hall
    intro step hstep
    obtain rfl := List.mem_singleton.mp hstep
    exact .subdivided hsteps
  | repetition text replayed values count =>
    exact h.repetition keeps hI text replayed (fun node hvalue => hinside node (List.mem_cons_of_mem _ hvalue))
      (hinside count (List.mem_cons_self ..)) hcontext hsource
  | operations text left steps => exact h.operations hI hnode hcontext hsource
  | euclid text pulses length rotate onset offset =>
    refine h.euclid keeps hI text pulses length rotate (hinside onset (List.mem_cons_self ..)) ?_ hcontext hsource
    intro node hoffset
    exact hinside node (List.mem_cons_of_mem _ (Option.mem_toList.mpr hoffset))
  | assignment text name eager value =>
    exact h.assignment hI text name eager (hinside value (List.mem_singleton.mpr rfl)) hcontext hsource
  | «variable» text name =>
    simp only [Realizer.level]
    exact (hstored.use hI name text hcontext hsource).withTree _
  | together text names =>
    simp only [Realizer.level]
    refine ((hstored.layers hI hcontext names source hsource).withResult ?_).withTree _
    intro layers hlayers all hall
    obtain rfl := Except.ok.inj hall
    exact Invariant.steps_ready (hI.together text hlayers)

theorem maintains_exhausted (I : Invariant) : Maintains I exhausted :=
  fun _ _ _ _ _ hcontext hsource => .failed hcontext hsource

theorem Maintains.toDepth (hI : I.Kept) {stored : Realizer} (hstored : Maintains I stored) (depth : Nat) :
    Maintains I (toDepth stored depth) := by
  induction depth with
  | zero => exact maintains_exhausted I
  | succ depth ih => exact ih.level hstored (keepsShape_toDepth stored depth) hI

theorem nested_maintains (hI : I.Kept) (limit : Nat) : Maintains I (nested limit) := by
  induction limit with
  | zero => exact maintains_exhausted I
  | succ limit ih =>
    intro n node context source hnode hcontext hsource
    exact Maintains.toDepth hI ih node.depth n node context source hnode hcontext hsource

end Realizer

/-- **Whole runs maintain what every rule respects.** -/
theorem realize_maintains {I : Invariant} (hI : I.Kept) : Realizer.Maintains I realize :=
  Realizer.nested_maintains hI nestingLimit

/-- Evaluation maintains what every rule respects, and yields events accordingly. -/
theorem evaluate_maintains {I : Invariant} (hI : I.Kept) {n : Nat} {nodes : List Node} {context : Context}
    {source : Source} (hnodes : ∀ node ∈ nodes, I.Admits node) (hcontext : I.Allows context)
    (hsource : I.source n source) : (evaluate nodes context source).Obeys I n I.Events :=
  ((realize_maintains hI).inOrder nodes context source hnodes hcontext hsource).withResult
    fun _ hsteps _ hevents => Invariant.events_of_assignDurations hI hsteps hevents

end NumberedMelody
