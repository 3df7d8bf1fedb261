/-
  NumberedMelody/Proofs/Melody/Looping.lean
  =========================================
  **What an endless loop over a melody yields.**  `Melody.after` evaluates the
  tree of a melody again and again from its start options, and `joined` lays
  the events of these evaluations end to end.  An endless loop hands out the
  events at the places that `Stand` follows; they are the joined events, each
  once and in order, whenever every cycle is as long as the one before it or a
  single event long.
-/
import NumberedMelody.Melody
import NumberedMelody.Proofs.Evaluation.Lockstep
import NumberedMelody.Proofs.Melody.Stand

namespace NumberedMelody.Melody

open NumberedMelody.Random (Source)
open Node (unplayedAll)

/-! ### Evaluating again and again -/

/-- The melody after so many further evaluations of its tree. -/
def after (m : Melody) : Nat → Melody
  | 0 => m
  | c + 1 => (m.after c).reEvaluate.1

/-- The number of events in each of the evaluations. -/
def lengths (m : Melody) (c : Nat) : Nat := (m.after c).events.length

/-- The events of the first evaluations, laid end to end. -/
def joined (m : Melody) (cycles : Nat) : List Event := (List.range cycles).flatMap fun c => (m.after c).events

/-- Every evaluation yields, and yields an event at least. -/
structure EveryCycleSounds (m : Melody) : Prop where
  yields : ∀ c, (m.after c).reEvaluate.2 = .ok ()
  sounds : ∀ c, (m.after c).events ≠ []

/-- The melody while a loop stands somewhere: evaluated so many times, with a
    number for its cycle that evaluation does not look at. -/
def standing (m : Melody) (s : Stand) : Melody := { m.after s.evaluation with cycle := s.cycle }

variable {m : Melody}

theorem EveryCycleSounds.lengths_pos (h : m.EveryCycleSounds) (c : Nat) : 0 < m.lengths c :=
  List.length_pos_iff.mpr (h.sounds c)

theorem reEvaluate_cycle (m : Melody) (cycle : Nat) :
    ({ m with cycle } : Melody).reEvaluate = ({ m.reEvaluate.1 with cycle }, m.reEvaluate.2) := by
  unfold reEvaluate
  simp only
  split <;> rfl

/-- An evaluation stays in its cycle, and goes back to its beginning if it succeeds. -/
theorem reEvaluate_place (m : Melody) :
    m.reEvaluate.1.cycle = m.cycle ∧ m.reEvaluate.1.cursor = bif m.reEvaluate.2.isOk then 0 else m.cursor := by
  simp only [reEvaluate]
  cases (evaluate m.nodes (.ofOptions m.start) m.source).result <;> exact ⟨rfl, rfl⟩

theorem reEvaluate_initialized (m : Melody) : m.reEvaluate.1.initialized = m.initialized := by
  unfold reEvaluate
  simp only
  split <;> rfl

/-- An evaluation leaves its tree and its source, whether it fails or not. -/
theorem reEvaluate_leaves (m : Melody) :
    m.reEvaluate.1.nodes = (evaluate m.nodes (.ofOptions m.start) m.source).tree ∧
      m.reEvaluate.1.source = (evaluate m.nodes (.ofOptions m.start) m.source).source ∧
      m.reEvaluate.1.start = m.start := by
  rw [reEvaluate]
  cases (evaluate m.nodes (.ofOptions m.start) m.source).result <;> exact ⟨rfl, rfl, rfl⟩

theorem reEvaluate_text (m : Melody) : m.reEvaluate.1.text = m.text := by
  rw [reEvaluate]
  cases (evaluate m.nodes (.ofOptions m.start) m.source).result <;> rfl

theorem unplayedAll_reEvaluate (m : Melody) : unplayedAll m.reEvaluate.1.nodes = unplayedAll m.nodes := by
  rw [m.reEvaluate_leaves.1]
  exact evaluate_keepsShape m.nodes (.ofOptions m.start) m.source

theorem after_initialized (m : Melody) (c : Nat) : (m.after c).initialized = m.initialized := by
  induction c with
  | zero => rfl
  | succ c ih => rw [after, reEvaluate_initialized, ih]

/-! ### One step of a loop -/

theorem inCycle_standing (h : m.EveryCycleSounds) (s : Stand) (index : Nat) :
    (m.standing s).inCycle (index / m.lengths s.evaluation) =
      (m.standing (s.turn m.lengths index), .ok ()) := by
  by_cases hsame : index / m.lengths s.evaluation = s.cycle
  · rw [Stand.turn_of_eq m.lengths hsame, hsame]
    simp only [inCycle, standing, if_pos]
  · rw [Stand.turn_of_ne m.lengths hsame]
    have hne : index / m.lengths s.evaluation ≠ (m.standing s).cycle := hsame
    simp only [inCycle, if_neg hne]
    show ({ m.after s.evaluation with cycle := index / m.lengths s.evaluation } : Melody).reEvaluate = _
    rw [reEvaluate_cycle, h.yields]
    rfl

/-- Asking for an index: the loop turns, and hands out the event at the place
    it then stands at. -/
theorem get_standing (h : m.EveryCycleSounds) (hinit : m.initialized = true) (s : Stand) (index : Nat) :
    (m.standing s).get index =
      (m.standing (s.turn m.lengths index),
        (m.after (s.turn m.lengths index).evaluation).eventAt index) := by
  have hready : (m.standing s).initialized = true := (after_initialized m s.evaluation).trans hinit
  have hlength : (m.standing s).cycleLength = .ok (m.lengths s.evaluation) := by
    have hne : (m.after s.evaluation).events.isEmpty = false := by
      simpa using h.sounds s.evaluation
    simp only [cycleLength, standing, hne]
    rfl
  unfold get
  rw [hready, hlength]
  simp only [Bool.not_true, Bool.false_eq_true, if_false, inCycle_standing h]
  rfl

theorem eventAt_eq_ok (h : m.EveryCycleSounds) (c index : Nat) :
    ∃ e, (m.after c).eventAt index = .ok e ∧ (m.after c).events[index % m.lengths c]? = some e := by
  have hlt : index % m.lengths c < (m.after c).events.length := Nat.mod_lt _ (h.lengths_pos c)
  refine ⟨(m.after c).events[index % m.lengths c], ?_, List.getElem?_eq_getElem hlt⟩
  have hget : (m.after c).events[index % (m.after c).events.length]? =
      some (m.after c).events[index % m.lengths c] := List.getElem?_eq_getElem hlt
  simp only [eventAt, hget]

/-! ### Whole loops -/

/-- The items of a loop from an index on.  `s` is where the loop stands before
    it asks for the first of them. -/
theorem loopFrom_standing (h : m.EveryCycleSounds) (hinit : m.initialized = true) (n : Nat) :
    ∀ (s : Stand) (index : Nat), s.turn m.lengths index = Stand.atIndex m.lengths index →
      ((m.standing s).loopFrom index n).2 =
        (List.range' index n).map fun i => (m.after (Stand.atIndex m.lengths i).evaluation).eventAt i := by
  induction n with
  | zero =>
    intro s index _
    rfl
  | succ n ih =>
    intro s index hturn
    simp only [loopFrom, get_standing h hinit, hturn, List.range'_succ, List.map_cons]
    rw [ih (Stand.atIndex m.lengths index) (index + 1) rfl]

/-- Reading up to the first failure is reading everything if nothing fails. -/
theorem takeFrom_of_loopFrom (n : Nat) : ∀ (m : Melody) (index : Nat) (events : List Event),
    (m.loopFrom index n).2 = events.map .ok → (m.takeFrom index n).2 = .ok events := by
  induction n with
  | zero =>
    intro m index events hloop
    have hnil : events = [] := by simpa [loopFrom] using hloop.symm
    subst hnil
    rfl
  | succ n ih =>
    intro m index events hloop
    rcases hget : m.get index with ⟨m', item⟩
    simp only [loopFrom, hget] at hloop
    cases events with
    | nil => simp at hloop
    | cons event events =>
      simp only [List.map_cons, List.cons.injEq] at hloop
      obtain ⟨hitem, hrest⟩ := hloop
      subst hitem
      have htake := ih m' (index + 1) events hrest
      simp only [takeFrom, hget, htake]
      rfl

/-! ### The joined events -/

theorem length_joined (m : Melody) (cycles : Nat) :
    (m.joined cycles).length = Stand.firstIndex m.lengths cycles := by
  induction cycles with
  | zero => rfl
  | succ cycles ih =>
    rw [joined, List.range_succ, List.flatMap_append, List.length_append, ← joined, ih]
    simp [Stand.firstIndex, lengths]

theorem getElem?_joined (m : Melody) {c cycles place : Nat} (hc : c < cycles) (hplace : place < m.lengths c) :
    (m.joined cycles)[Stand.firstIndex m.lengths c + place]? = (m.after c).events[place]? := by
  induction cycles with
  | zero => omega
  | succ cycles ih =>
    rw [joined, List.range_succ, List.flatMap_append, ← joined]
    by_cases hlt : c < cycles
    · have hnext : Stand.firstIndex m.lengths (c + 1) ≤ Stand.firstIndex m.lengths cycles :=
        Stand.firstIndex_mono m.lengths hlt
      rw [List.getElem?_append_left, ih hlt]
      rw [length_joined]
      simp only [Stand.firstIndex] at hnext
      omega
    · have hlast : c = cycles := by omega
      subst hlast
      rw [List.getElem?_append_right, length_joined]
      · simp
      · rw [length_joined]
        omega

theorem EveryCycleSounds.le_firstIndex (h : m.EveryCycleSounds) (c : Nat) :
    c ≤ Stand.firstIndex m.lengths c := by
  induction c with
  | zero => exact Nat.zero_le _
  | succ c ih =>
    have := h.lengths_pos c
    simp only [Stand.firstIndex]
    omega

/-- At an index that is in order, the event handed out is the joined one. -/
theorem eventAt_of_inOrderAt (h : m.EveryCycleSounds) {index cycles : Nat}
    (horder : Stand.InOrderAt m.lengths index) (hlt : index < cycles) :
    ((m.joined cycles)[index]?).map Except.ok =
      some ((m.after (Stand.atIndex m.lengths index).evaluation).eventAt index) := by
  obtain ⟨e, hok, hget⟩ := eventAt_eq_ok h (Stand.atIndex m.lengths index).evaluation index
  have hplace := Nat.mod_lt index (h.lengths_pos (Stand.atIndex m.lengths index).evaluation)
  have hle := h.le_firstIndex (Stand.atIndex m.lengths index).evaluation
  unfold Stand.InOrderAt at horder
  have hcycle : (Stand.atIndex m.lengths index).evaluation < cycles := by omega
  have hjoined := getElem?_joined m hcycle hplace
  rw [horder, hget] at hjoined
  rw [hjoined, hok]
  rfl

/-- What the loop yields is the joined events as far as all is in order. -/
theorem map_eventAt_of_inOrder (h : m.EveryCycleSounds) (horder : ∀ index, Stand.InOrderAt m.lengths index)
    (n : Nat) :
    ((List.range n).map fun i => (m.after (Stand.atIndex m.lengths i).evaluation).eventAt i) =
      ((m.joined n).take n).map .ok := by
  apply List.ext_getElem?
  intro index
  by_cases hlt : index < n
  · rw [List.getElem?_map, List.getElem?_map, List.getElem?_take_of_lt hlt,
      eventAt_of_inOrderAt h (horder index) hlt, List.getElem?_range hlt]
    rfl
  · rw [List.getElem?_eq_none, List.getElem?_eq_none]
    · simp only [List.length_map, List.length_take]
      omega
    · simp only [List.length_map, List.length_range]
      omega

/-! ### The first cycle -/

theorem standing_of_init {fresh : Melody} {options : Options} (hinit : fresh.init options = (m, .ok ())) :
    m.initialized = true ∧ m = m.standing ⟨0, 0⟩ := by
  unfold init at hinit
  simp only at hinit
  split at hinit
  · rename_i first hfirst
    have hcycle : first.cycle = 0 := by
      have := reEvaluate_cycle { fresh with source := .ofSeed (options.seed.getD 0), start := options, cursor := 0 } 0
      rw [hfirst] at this
      simpa using congrArg (fun pair => pair.1.cycle) this
    obtain ⟨rfl, -⟩ := Prod.mk.inj hinit
    refine ⟨rfl, ?_⟩
    show ({ first with initialized := true } : Melody) = { first with initialized := true, cycle := 0 }
    rw [← hcycle]
  · rename_i failed hfailed
    exact absurd hinit (hfailed m)

theorem reEvaluate_of_result {events : List Event}
    (h : (evaluate m.nodes (.ofOptions m.start) m.source).result = .ok events) :
    m.reEvaluate.2 = .ok () ∧ m.reEvaluate.1.events = events ∧
      m.reEvaluate.1.nodes = (evaluate m.nodes (.ofOptions m.start) m.source).tree := by
  unfold reEvaluate
  simp only [h]
  exact ⟨trivial, trivial, trivial⟩

theorem init_of_reEvaluate {fresh : Melody} {options : Options} {m : Melody}
    (h : ({ fresh with
        source := .ofSeed (options.seed.getD 0), start := options, cycle := 0, cursor := 0 } : Melody).reEvaluate =
      (m, .ok ())) : fresh.init options = ({ m with initialized := true }, .ok ()) := by
  unfold init
  simp only [h]

/-- A pattern starts if its tree can be evaluated. -/
theorem init_of_result {fresh : Melody} {options : Options} {events : List Event}
    (h : (evaluate fresh.nodes (.ofOptions options) (.ofSeed (options.seed.getD 0))).result = .ok events) :
    ∃ m, fresh.init options = (m, .ok ()) ∧ m.events = events ∧
      m.nodes = (evaluate fresh.nodes (.ofOptions options) (.ofSeed (options.seed.getD 0))).tree := by
  let started : Melody :=
    { fresh with source := .ofSeed (options.seed.getD 0), start := options, cycle := 0, cursor := 0 }
  obtain ⟨hok, hevents, hnodes⟩ := reEvaluate_of_result (m := started) h
  have hpair : started.reEvaluate = (started.reEvaluate.1, .ok ()) := Prod.ext rfl hok
  exact ⟨_, init_of_reEvaluate hpair, hevents, hnodes⟩

/-- A pattern sounds in every cycle if its tree is of a kind that yields events
    when it is evaluated, so many in each cycle, and is of such a kind again
    afterwards. -/
theorem everyCycleSounds_of_evaluate (kind : Nat → List Node → Prop) (count : Nat → Nat)
    (hpos : ∀ c, 0 < count c)
    (hstep : ∀ c nodes context source, kind c nodes →
      ∃ events, (evaluate nodes context source).result = .ok events ∧ events.length = count c ∧
        kind (c + 1) (evaluate nodes context source).tree)
    {fresh : Melody} (hfresh : kind 0 fresh.nodes) (options : Options) :
    ∃ m, fresh.init options = (m, .ok ()) ∧ m.EveryCycleSounds ∧ ∀ c, m.lengths c = count c := by
  obtain ⟨events, hresult, hcount, hkind⟩ :=
    hstep 0 fresh.nodes (.ofOptions options) (.ofSeed (options.seed.getD 0)) hfresh
  obtain ⟨m, hinit, hevents, hnodes⟩ := init_of_result hresult
  have hafter : ∀ c, kind (c + 1) (m.after c).nodes ∧ (m.after c).events.length = count c := by
    intro c
    induction c with
    | zero => exact ⟨hnodes ▸ hkind, hevents ▸ hcount⟩
    | succ c ih =>
      obtain ⟨events, hresult, hcount, hkind⟩ :=
        hstep (c + 1) (m.after c).nodes (.ofOptions (m.after c).start) (m.after c).source ih.1
      obtain ⟨-, hevents, hnodes⟩ := reEvaluate_of_result hresult
      exact ⟨hnodes ▸ hkind, hevents ▸ hcount⟩
  refine ⟨m, hinit, ⟨?_, ?_⟩, fun c => (hafter c).2⟩
  · intro c
    obtain ⟨events, hresult, -⟩ :=
      hstep (c + 1) (m.after c).nodes (.ofOptions (m.after c).start) (m.after c).source (hafter c).1
    exact (reEvaluate_of_result hresult).1
  · intro c
    have hlength := (hafter c).2
    have := hpos c
    exact List.ne_nil_of_length_pos (by omega)

/-- **What an endless loop yields.**  Let every evaluation of a pattern yield
    an event at least.  The item of an index is the event at a place that the
    lengths of the cycles decide; all items come from the places that reading
    cycle after cycle in full comes to exactly if every cycle is as long as the
    one before it or a single event long; and then the first items are the
    first of the joined events. -/
theorem loop_reads_in_order_iff {options : Options} {fresh m : Melody}
    (hinit : fresh.init options = (m, .ok ())) (h : m.EveryCycleSounds) :
    (∀ n, (m.loop n).2 =
        (List.range n).map fun i => (m.after (Stand.atIndex m.lengths i).evaluation).eventAt i) ∧
      ((∀ index, Stand.InOrderAt m.lengths index) ↔
        ∀ c, m.lengths (c + 1) = m.lengths c ∨ m.lengths (c + 1) = 1) ∧
      ((∀ c, m.lengths (c + 1) = m.lengths c ∨ m.lengths (c + 1) = 1) →
        ∀ n, (m.loop n).2 = ((m.joined n).take n).map .ok ∧ (m.take n).2 = .ok ((m.joined n).take n)) := by
  obtain ⟨hready, hstand⟩ := standing_of_init hinit
  have hloop : ∀ n, (m.loop n).2 =
      (List.range n).map fun i => (m.after (Stand.atIndex m.lengths i).evaluation).eventAt i := by
    intro n
    have hturn : Stand.turn m.lengths 0 ⟨0, 0⟩ = Stand.atIndex m.lengths 0 :=
      Stand.turn_of_eq m.lengths (Nat.zero_div _)
    have hitems := loopFrom_standing h hready n ⟨0, 0⟩ 0 hturn
    rw [← hstand, ← List.range_eq_range'] at hitems
    exact hitems
  have hiff := Stand.inOrderAt_iff_lengths h.lengths_pos
  refine ⟨hloop, hiff, ?_⟩
  intro hlengths n
  have hitems : (m.loop n).2 = ((m.joined n).take n).map .ok :=
    (hloop n).trans (map_eventAt_of_inOrder h (hiff.mpr hlengths) n)
  exact ⟨hitems, takeFrom_of_loopFrom n m 0 _ hitems⟩

/-! ### Two patterns -/

/-- Two pitches with blanks between them. -/
def isPitchPair : List Node → Bool
  | [.event (.pitch _), .blank _, .event (.pitch _)] => true
  | _ => false

/-- A pitch and a list of two pitches, dealt out in turn. -/
def isAlternation : List Node → Bool
  | [.cycle _ [.event (.pitch _), .sequence _ _ _ values] _] => isPitchPair values
  | _ => false

theorem inOrder_pitchPair {nodes : List Node} (h : isPitchPair nodes = true) (context : Context)
    (source : Source) :
    ∃ first second : Pitch, Realizer.inOrder realize nodes context source =
      ⟨nodes, context, source, .ok [.ready (.pitch first), .ready (.pitch second)]⟩ := by
  unfold isPitchPair at h
  split at h
  · rename_i first blank second
    refine ⟨first.resolve context.options, second.resolve context.options, ?_⟩
    simp only [Realizer.inOrder, realize_pitch, realize_blank]
    rfl
  · cases h

theorem evaluate_pitchPair {nodes : List Node} (h : isPitchPair nodes = true) (context : Context)
    (source : Source) :
    ∃ events, (evaluate nodes context source).result = .ok events ∧ events.length = 2 ∧
      isPitchPair (evaluate nodes context source).tree = true := by
  obtain ⟨first, second, hrun⟩ := inOrder_pitchPair h context source
  refine ⟨[.pitch first, .pitch second], ?_, rfl, ?_⟩
  · simp only [evaluate, hrun]
    rfl
  · simp only [evaluate, hrun]
    exact h

/-- The visits of a pattern that is one cycle. -/
def visitsOf : List Node → Nat
  | [.cycle _ _ visits] => visits
  | _ => 0

/-- An alternation yields one event and two events in turn. -/
theorem evaluate_alternation {nodes : List Node} {c : Nat} (h : isAlternation nodes = true)
    (hvisits : visitsOf nodes = c) (context : Context) (source : Source) :
    ∃ events, (evaluate nodes context source).result = .ok events ∧ events.length = c % 2 + 1 ∧
      isAlternation (evaluate nodes context source).tree = true ∧
      visitsOf (evaluate nodes context source).tree = c + 1 := by
  unfold isAlternation at h
  split at h
  · rename_i text p list overrides isList values visits
    have hc : visits = c := hvisits
    subst hc
    rcases Nat.mod_two_eq_zero_or_one visits with hmod | hmod
    · have hplace : visits % [Node.event (.pitch p), .sequence list overrides isList values].length = 0 := hmod
      have hrun := realize_cycle hplace rfl text context source
      refine ⟨[.pitch (p.resolve context.options)], ?_⟩
      simp only [evaluate, Realizer.inOrder, hrun, realize_pitch]
      exact ⟨rfl, congrArg (· + 1) hmod.symm, h, rfl⟩
    · obtain ⟨first, second, hpair⟩ := inOrder_pitchPair h (context.inside overrides) source
      have hplace : visits % [Node.event (.pitch p), .sequence list overrides isList values].length = 1 := hmod
      have hrun := realize_cycle hplace rfl text context source
      refine ⟨[.pitch first, .pitch second], ?_⟩
      simp only [evaluate, Realizer.inOrder, hrun, realize_sequence, hpair]
      exact ⟨rfl, congrArg (· + 1) hmod.symm, h, rfl⟩
  · cases h

/-- A text reads as a melody that passes a check. -/
def readsAs (text : String) (check : Melody → Bool) : Bool :=
  match Melody.read text with
  | .ok fresh => check fresh
  | .error _ => false

theorem exists_of_readsAs {text : String} {check : Melody → Bool} (h : readsAs text check = true) :
    ∃ fresh, Melody.read text = .ok fresh ∧ check fresh = true := by
  unfold readsAs at h
  cases hread : Melody.read text with
  | error failure => simp [hread] at h
  | ok fresh =>
    simp only [hread] at h
    exact ⟨fresh, rfl, h⟩

/-- Two pitches over and over: all cycles have one length, and the loop reads
    them in order. -/
theorem loop_reads_pitchPair_in_order :
    ∃ fresh m, Melody.read "0 1" = .ok fresh ∧ fresh.init {} = (m, .ok ()) ∧ m.EveryCycleSounds ∧
      (∀ c, m.lengths (c + 1) = m.lengths c ∨ m.lengths (c + 1) = 1) ∧
      (m.take 3).2 = .ok ((m.joined 3).take 3) := by
  have hcheck : readsAs "0 1" (fun fresh => isPitchPair fresh.nodes) = true := by decide +kernel
  obtain ⟨fresh, hread, hpair⟩ := exists_of_readsAs hcheck
  obtain ⟨m, hinit, hsounds, hlengths⟩ :=
    everyCycleSounds_of_evaluate (fun _ nodes => isPitchPair nodes = true) (fun _ => 2) (fun _ => by decide)
      (fun _ _ context source h => evaluate_pitchPair h context source) hpair {}
  have hsame : ∀ c, m.lengths (c + 1) = m.lengths c ∨ m.lengths (c + 1) = 1 :=
    fun c => .inl ((hlengths (c + 1)).trans (hlengths c).symm)
  exact ⟨fresh, m, hread, hinit, hsounds, hsame,
    ((loop_reads_in_order_iff hinit hsounds).2.2 hsame 3).2⟩

/-- The texts of events, if there are any. -/
def eventTexts (events : Except Failure (List Event)) : Option (List String) :=
  events.toOption.map (·.map Event.text)

/-- One event and two events in turn: the loop passes over the first event of
    the second cycle. -/
theorem loop_skips_of_alternation :
    ∃ fresh m, Melody.read "<0 (1 2)>" = .ok fresh ∧ fresh.init { seed := some 0 } = (m, .ok ()) ∧
      m.EveryCycleSounds ∧ (m.take 2).2 ≠ .ok ((m.joined 2).take 2) := by
  let options : Options := { seed := some 0 }
  have hcheck : readsAs "<0 (1 2)>" (fun fresh =>
      let m := (fresh.init options).1
      isAlternation fresh.nodes && visitsOf fresh.nodes == 0 &&
        eventTexts (m.take 2).2 == some ["0", "2"] &&
        eventTexts (.ok ((m.joined 2).take 2)) == some ["0", "1"]) = true := by decide +kernel
  obtain ⟨fresh, hread, hfresh⟩ := exists_of_readsAs hcheck
  simp only [Bool.and_eq_true, beq_iff_eq] at hfresh
  obtain ⟨⟨⟨halternation, hvisits⟩, htaken⟩, hjoined⟩ := hfresh
  obtain ⟨m, hinit, hsounds, -⟩ :=
    everyCycleSounds_of_evaluate (fun c nodes => isAlternation nodes = true ∧ visitsOf nodes = c)
      (fun c => c % 2 + 1) (fun _ => Nat.succ_pos _)
      (fun _ _ context source h => evaluate_alternation h.1 h.2 context source) ⟨halternation, hvisits⟩ options
  refine ⟨fresh, m, hread, hinit, hsounds, ?_⟩
  intro heq
  rw [hinit] at htaken hjoined
  rw [heq, hjoined] at htaken
  simp at htaken

end NumberedMelody.Melody
