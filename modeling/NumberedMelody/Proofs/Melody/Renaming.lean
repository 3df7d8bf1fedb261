/-
  NumberedMelody/Proofs/Melody/Renaming.lean
  ==========================================
  **Melodies by other names.**  A pattern names neither keys nor scales, so the
  tree that is read of it is the same by other names (`map_node_of_read`): keys
  and scales come from the options alone.  A melody that is started from options
  with other names for the same key and the same scale plays events with the same
  documents, over all its cycles, and fails where it failed (`played_renamed`).
-/
import NumberedMelody.Melody
import NumberedMelody.Proofs.Evaluation.Renaming
import NumberedMelody.Proofs.Grammar.WellFormed

namespace NumberedMelody

namespace Renaming

variable (names : Renaming)

/-! ### What is read of a pattern -/

theorem overrides_eq_self {o : Overrides} (h : o.Keyless) : names.overrides o = o := by
  obtain ⟨hkey, hscale⟩ := h
  simp only [overrides, hkey, hscale, Option.map_none]
  rw [← hkey, ← hscale]

theorem pitch_eq_self {p : Pitch} (h : p.WellFormed) : names.pitch p = p := by
  rw [h.written]
  simp only [pitch, Option.map_none, names.overrides_eq_self h.keyless]

theorem map_eq_self {α : Type} {f : α → α} {xs : List α} (h : ∀ x ∈ xs, f x = x) : xs.map f = xs :=
  (List.map_congr_left h).trans (List.map_id xs)

theorem event_eq_self {e : Event} (h : e.WellFormed) : names.event e = e := by
  cases e with
  | pitch p => exact congrArg Event.pitch (names.pitch_eq_self h)
  | chord c =>
    have htones : c.tones.map names.pitch = c.tones :=
      map_eq_self fun tone htone => names.pitch_eq_self (h.tones tone htone)
    simp only [event, chord, htones, names.overrides_eq_self h.keyless]
  | rest r => simp only [event, names.overrides_eq_self h.1]
  | sample | function | polyphony => exact h.elim

theorem numeral_eq_self {k : KeptNumeral} (hkeyless : k.numeral.overrides.Keyless) (hkept : k.kept = none) :
    names.numeral k = k := by
  obtain ⟨r, kept, faithful⟩ := k
  obtain rfl : kept = none := hkept
  simp only [numeral, spelled, names.overrides_eq_self hkeyless, Option.map_none]

theorem nodes_eq_self {values : List Node} (h : ∀ value ∈ values, names.node value = value) :
    names.nodes values = values := by rw [nodes_eq_map, map_eq_self h]

theorem operation_eq_self {step : Operation Node} (h : ∀ right ∈ step.right?, names.node right = right) :
    names.operation step = step := by
  cases step with
  | map expr => rfl
  | binary op right =>
    rcases right with _ | right
    · rfl
    · simp only [operation, operand, h right rfl]

theorem node_eq_self_of_children {n : Node} (hn : n.WellFormed)
    (hchildren : ∀ child ∈ n.children, names.node child = child) : names.node n = n := by
  cases n with
  | event e => exact congrArg Node.event (names.event_eq_self hn)
  | numeral k => exact congrArg Node.numeral (names.numeral_eq_self hn.2.1 hn.2.2)
  | randomPitch text o => simp only [node, names.overrides_eq_self hn]
  | randomInteger text o low high => simp only [node, names.overrides_eq_self hn.1]
  | range text o first last => simp only [node, names.overrides_eq_self hn]
  | expression text o expr => simp only [node, names.overrides_eq_self hn]
  | sequence text o isList values =>
    have hkeyless : o.Keyless := by cases isList <;> exact hn.1
    have hvalues : names.nodes values = values := names.nodes_eq_self hchildren
    rw [node, names.overrides_eq_self hkeyless, hvalues]
  | cycle text values visits =>
    have hvalues : names.nodes values = values := names.nodes_eq_self hchildren
    rw [node, hvalues]
  | subdivision text o values =>
    have hvalues : names.nodes values = values := names.nodes_eq_self hchildren
    rw [node, names.overrides_eq_self hn.1, hvalues]
  | repetition text replayed values count =>
    have hcount := hchildren count (List.mem_cons_self ..)
    have hvalues := names.nodes_eq_self fun value hvalue => hchildren value (List.mem_cons_of_mem _ hvalue)
    rw [node, hcount, hvalues]
  | operations text left steps =>
    have hleft := hchildren left (List.mem_cons_self ..)
    have hsteps : steps.map names.operation = steps := by
      refine map_eq_self fun step hstep => names.operation_eq_self fun right hright => ?_
      exact hchildren right (List.mem_cons_of_mem _ (List.mem_filterMap.mpr ⟨step, hstep, hright⟩))
    simp only [node, operations_eq_map, hleft, hsteps]
  | euclid text pulses length rotate onset offset =>
    have honset := hchildren onset (List.mem_cons_self ..)
    rcases offset with _ | offset
    · simp only [node, operand, honset]
    · have hoffset := hchildren offset (List.mem_cons_of_mem _ (List.mem_singleton_self offset))
      simp only [node, operand, honset, hoffset]
  | assignment text name eager value =>
    have hvalue := hchildren value (List.mem_singleton_self value)
    simp only [node, hvalue]
  | _ => rfl

theorem node_eq_self {n : Node} (h : n.Everywhere Node.WellFormed) : names.node n = n := by
  induction h with
  | intro here _ ih => exact names.node_eq_self_of_children here ih

/-- **A pattern names no keys and no scales.** -/
theorem map_node_of_read {text : String} {nodes : List Node} (h : readPattern text = .ok nodes) :
    nodes.map names.node = nodes :=
  map_eq_self fun n hn => names.node_eq_self (Grammar.items_wellFormed _ nodes [] (readPattern_eq_ok.mp h) n hn).2

/-! ### Melodies -/

def melody (m : Melody) : Melody :=
  { m with nodes := m.nodes.map names.node, start := names.options m.start, events := m.events.map names.event }

variable (m : Melody)

theorem reEvaluate_melody : (names.melody m).reEvaluate = (names.melody m.reEvaluate.1, m.reEvaluate.2) := by
  have hrun := evaluate_renamed names m.nodes (.ofOptions m.start) m.source
  unfold Melody.reEvaluate
  simp only [melody, ← names.context_ofOptions, hrun.eq]
  rcases (evaluate m.nodes (.ofOptions m.start) m.source).result with failure | events <;> rfl

theorem inCycle_melody (cycle : Nat) :
    (names.melody m).inCycle cycle = (names.melody (m.inCycle cycle).1, (m.inCycle cycle).2) := by
  unfold Melody.inCycle
  rw [show (names.melody m).cycle = m.cycle from rfl]
  split
  · rfl
  · exact names.reEvaluate_melody { m with cycle }

theorem cycleLength_melody : (names.melody m).cycleLength = m.cycleLength := by
  simp only [Melody.cycleLength, melody, List.isEmpty_map, List.length_map]

theorem eventAt_melody (index : Nat) : (names.melody m).eventAt index = (m.eventAt index).map names.event := by
  simp only [Melody.eventAt, melody, List.length_map, List.getElem?_map]
  rcases m.events[index % m.events.length]? with _ | e <;> rfl

theorem get_melody (index : Nat) :
    (names.melody m).get index = (names.melody (m.get index).1, (m.get index).2.map names.event) := by
  unfold Melody.get
  rw [show (names.melody m).initialized = m.initialized from rfl, names.cycleLength_melody]
  split
  · rfl
  · rcases m.cycleLength with failure | length
    · rfl
    · simp only [names.inCycle_melody]
      rcases m.inCycle (index / length) with ⟨m, failure | _⟩
      · rfl
      · simp only [names.eventAt_melody]

theorem loopFrom_melody (n : Nat) : ∀ (m : Melody) (index : Nat),
    (names.melody m).loopFrom index n =
      (names.melody (m.loopFrom index n).1, (m.loopFrom index n).2.map (Except.map names.event)) := by
  induction n with
  | zero =>
    intro m index
    rfl
  | succ n ih =>
    intro m index
    simp only [Melody.loopFrom, names.get_melody, ih, List.map_cons]

theorem init_melody {m : Melody} (hnodes : m.nodes.map names.node = m.nodes) (hevents : m.events = []) (o : Options) :
    m.init (names.options o) = (names.melody (m.init o).1, (m.init o).2) := by
  have hstart : ({ m with
        source := .ofSeed ((names.options o).seed.getD 0), start := names.options o, cycle := 0, cursor := 0 } : Melody) =
      names.melody { m with source := .ofSeed (o.seed.getD 0), start := o, cycle := 0, cursor := 0 } := by
    simp only [melody, hnodes, hevents, List.map_nil]
    rfl
  unfold Melody.init
  simp only [hstart, names.reEvaluate_melody]
  rcases Melody.reEvaluate { m with source := .ofSeed (o.seed.getD 0), start := o, cycle := 0, cursor := 0 } with
    ⟨m, failure | _⟩ <;> rfl

end Renaming

/-- What an endless loop over a pattern yields first, as documents, failures among
    it; or the failure of the first cycle. -/
def played (text : String) (options : Options) (n : Nat) : Except Failure (List (Except Failure Document)) :=
  (play text options).map fun m => (m.loop n).2.map (Except.map Event.document)

/-- **Other names for key and scale are not heard**, in any pattern. -/
theorem played_renamed (names : Renaming) (text : String) (options : Options) (n : Nat) :
    played text (names.options options) n = played text options n := by
  unfold played play Melody.read
  rcases hread : readPattern text with failure | nodes
  · rfl
  · have hinit := names.init_melody (m := Melody.ofNodes text nodes) (names.map_node_of_read hread) rfl options
    simp only [Except.map, bind, Except.bind, hinit]
    rcases (Melody.ofNodes text nodes).init options with ⟨m, failure | _⟩
    · rfl
    · simp only [Melody.loop, names.loopFrom_melody, List.map_map]
      refine congrArg Except.ok (List.map_congr_left ?_)
      rintro (failure | e) _
      · rfl
      · exact congrArg Except.ok (names.document_event e)

end NumberedMelody
