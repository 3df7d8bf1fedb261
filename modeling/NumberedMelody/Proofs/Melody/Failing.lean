/-
  NumberedMelody/Proofs/Melody/Failing.lean
  =========================================
  **What failed calls leave.**  An indexed access puts down the number of the
  cycle that it enters before it evaluates the tree, and a start puts down its
  options, the number zero and the cursor first.  Nothing of that is taken back
  on failure.  After a failed evaluation the melody counts as standing in a
  cycle whose events it does not hold, and hands out the events of the cycle
  before in their place (`Stale`); after an evaluation without events it hands
  out nothing any more (`Silent`).
-/
import NumberedMelody.Proofs.Melody.Periodic

namespace NumberedMelody.Melody

/-- What can be read off two melodies is the same. -/
structure ReadsLike (m left : Melody) : Prop where
  events : left.events = m.events
  cycle : left.cycle = m.cycle
  cursor : left.cursor = m.cursor
  start : left.start = m.start

/-- The melody stands in a cycle with the events of another, and hands them out. -/
structure Stale (m left : Melody) (cycle : Nat) : Prop where
  events : left.events = m.events
  cursor : left.cursor = m.cursor
  current : left.cycle = cycle
  reads : ∀ index, index / m.events.length = cycle → ∃ e ∈ m.events, left.get index = (left, .ok e)

/-- The melody stands in a cycle without events, and hands out nothing. -/
structure Silent (left : Melody) (cycle : Nat) : Prop where
  events : left.events = []
  cursor : left.cursor = 0
  current : left.cycle = cycle
  reads : ∀ index, left.get index = (left, .error (.emptyPattern left.text))

variable {m left : Melody} {failure : Failure}

/-! ### Evaluating again -/

theorem reEvaluate_of_error (h : m.reEvaluate = (left, .error failure)) :
    m.ReadsLike left ∧ left.initialized = m.initialized := by
  unfold reEvaluate at h
  simp only at h
  split at h
  · cases h
  · obtain ⟨rfl, -⟩ := Prod.mk.inj h
    exact ⟨⟨rfl, rfl, rfl, rfl⟩, rfl⟩

theorem reEvaluate_of_ok (h : m.reEvaluate = (left, .ok ())) :
    left.cursor = 0 ∧ left.cycle = m.cycle ∧ left.start = m.start ∧ left.initialized = m.initialized := by
  unfold reEvaluate at h
  simp only at h
  split at h
  · obtain ⟨rfl, -⟩ := Prod.mk.inj h
    exact ⟨rfl, rfl, rfl, rfl⟩
  · cases h

/-! ### Indexed access -/

theorem cycleLength_of_sounds (h : m.events ≠ []) : m.cycleLength = .ok m.events.length := by
  have hempty : m.events.isEmpty = false := by simpa using h
  simp only [cycleLength, hempty]
  rfl

theorem cycleLength_of_empty (h : m.events = []) : m.cycleLength = .error (.emptyPattern m.text) := by
  simp only [cycleLength, h]
  rfl

theorem get_of_same_cycle (hready : m.initialized = true) (hsounds : m.events ≠ []) {index : Nat}
    (hcycle : index / m.events.length = m.cycle) : m.get index = (m, m.eventAt index) := by
  have hstay : m.inCycle (index / m.events.length) = (m, .ok ()) := by
    unfold inCycle
    exact if_pos hcycle
  unfold get
  rw [hready, cycleLength_of_sounds hsounds]
  simp only [Bool.not_true, Bool.false_eq_true, if_false, hstay]

theorem get_of_empty (hready : m.initialized = true) (hempty : m.events = []) (index : Nat) :
    m.get index = (m, .error (.emptyPattern m.text)) := by
  unfold get
  rw [hready, cycleLength_of_empty hempty]
  simp only [Bool.not_true, Bool.false_eq_true, if_false]

theorem stale_of_error (hready : m.initialized = true) (hsounds : m.events ≠ []) {cycle : Nat}
    (h : ({ m with cycle } : Melody).reEvaluate = (left, .error failure)) : m.Stale left cycle := by
  obtain ⟨⟨hevents, hcycle, hcursor, -⟩, hready'⟩ := reEvaluate_of_error h
  simp only at hevents hcycle hcursor hready'
  refine ⟨hevents, hcursor, hcycle, ?_⟩
  rw [← hevents] at hsounds ⊢
  rw [← hcycle]
  intro index hindex
  obtain ⟨e, hplace, he⟩ := eventAt_of_sounds hsounds index
  refine ⟨e, List.mem_of_getElem? hplace, ?_⟩
  rw [get_of_same_cycle (hready'.trans hready) hsounds hindex, he]

theorem silent_of_ok (hready : m.initialized = true) {cycle index : Nat}
    (h : ({ m with cycle } : Melody).reEvaluate = (left, .ok ())) (hfails : left.eventAt index = .error failure) :
    left.Silent cycle := by
  have hempty : left.events = [] := by
    apply Classical.byContradiction
    intro hsounds
    obtain ⟨e, -, he⟩ := eventAt_of_sounds hsounds index
    rw [he] at hfails
    cases hfails
  obtain ⟨hcursor, hcycle, -, hready'⟩ := reEvaluate_of_ok h
  exact ⟨hempty, hcursor, hcycle, get_of_empty (hready'.trans hready) hempty⟩

/-- A failed access has changed nothing, or has begun to evaluate another cycle. -/
theorem get_of_error {index : Nat} (h : m.get index = (left, .error failure)) :
    (left = m ∧ (m.initialized = false ∨ m.events = [])) ∨
      (m.initialized = true ∧ m.events ≠ [] ∧ index / m.events.length ≠ m.cycle ∧ left.start = m.start ∧
        (m.Stale left (index / m.events.length) ∨ left.Silent (index / m.events.length))) := by
  cases hready : m.initialized with
  | false =>
    unfold get at h
    rw [hready] at h
    exact .inl ⟨(Prod.mk.inj h).1.symm, .inl rfl⟩
  | true =>
    by_cases hempty : m.events = []
    · rw [get_of_empty hready hempty index] at h
      exact .inl ⟨(Prod.mk.inj h).1.symm, .inr hempty⟩
    · right
      have hother : index / m.events.length ≠ m.cycle := by
        intro hsame
        obtain ⟨e, -, he⟩ := eventAt_of_sounds hempty index
        rw [get_of_same_cycle hready hempty hsame, he] at h
        cases h
      refine ⟨rfl, hempty, hother, ?_⟩
      unfold get at h
      rw [hready, cycleLength_of_sounds hempty] at h
      simp only [Bool.not_true, Bool.false_eq_true, if_false, inCycle, if_neg hother] at h
      rcases heval : ({ m with cycle := index / m.events.length } : Melody).reEvaluate with ⟨next, result⟩
      rw [heval] at h
      cases result with
      | error failure' =>
        obtain ⟨rfl, -⟩ := Prod.mk.inj h
        exact ⟨(reEvaluate_of_error heval).1.start, .inl (stale_of_error hready hempty heval)⟩
      | ok done =>
        obtain ⟨rfl, hfails⟩ := Prod.mk.inj h
        exact ⟨(reEvaluate_of_ok heval).2.2.1, .inr (silent_of_ok hready heval hfails)⟩

/-! ### Starting -/

/-- A failed start keeps the events, and puts everything else back to a beginning. -/
theorem init_of_error {options : Options} (h : m.init options = (left, .error failure)) :
    left.events = m.events ∧ left.start = options ∧ left.cycle = 0 ∧ left.cursor = 0 := by
  unfold init at h
  simp only at h
  split at h
  · cases h
  · obtain ⟨hevents, hcycle, hcursor, hstart⟩ := (reEvaluate_of_error h).1
    exact ⟨hevents, hstart, hcycle, hcursor⟩

/-! ### A division by zero in a later cycle -/

/-- The second evaluation of a pattern divides by zero, be it for an access or
    for another start. -/
theorem second_evaluation_fails :
    ∃ fresh m left restarted failure failure', Melody.read "(4)/(<2 0 1>)" = .ok fresh ∧
      fresh.init { seed := some 0 } = (m, .ok ()) ∧ m.initialized = true ∧ m.events.length = 1 ∧ m.cycle = 0 ∧
      m.get 1 = (left, .error failure) ∧ left.events.length = 1 ∧
      m.init { octave := 1 } = (restarted, .error failure') := by
  have hcheck : readsAs "(4)/(<2 0 1>)" (fun fresh =>
      let m := (fresh.init { seed := some 0 }).1
      (fresh.init { seed := some 0 }).2.toOption.isSome && m.initialized && m.events.length == 1 && m.cycle == 0 &&
        (m.get 1).2.toOption.isNone && (m.get 1).1.events.length == 1 &&
        (m.init { octave := 1 }).2.toOption.isNone) = true := by decide +kernel
  obtain ⟨fresh, hread, hfresh⟩ := exists_of_readsAs hcheck
  simp only [Bool.and_eq_true, beq_iff_eq] at hfresh
  obtain ⟨⟨⟨⟨⟨⟨hstarts, hready⟩, hlength⟩, hcycle⟩, hfails⟩, hleft⟩, hfails'⟩ := hfresh
  rcases hinit : fresh.init { seed := some 0 } with ⟨m, started⟩
  rw [hinit] at hstarts hready hlength hcycle hfails hleft hfails'
  rcases hget : m.get 1 with ⟨left, item⟩
  rw [hget] at hfails hleft
  rcases hagain : m.init { octave := 1 } with ⟨restarted, started'⟩
  rw [hagain] at hfails'
  cases started with
  | error failure => cases hstarts
  | ok done =>
    cases item with
    | ok e => cases hfails
    | error failure =>
      cases started' with
      | ok done' => cases hfails'
      | error failure' =>
        exact ⟨fresh, m, left, restarted, failure, failure', hread, hinit, hready, hlength, hcycle, hget, hleft,
          hagain⟩

/-! ### All failed calls -/

/-- **What failed calls leave.**  A failed access leaves what can be read of a
    melody alone exactly if no evaluation was begun: there was nothing to read
    from.  Otherwise the melody stands in the cycle that was to be evaluated,
    with the events of the cycle before, which it hands out at every index of
    this cycle, or with no events at all.  A failed start keeps the events only. -/
theorem failed_calls_leave (m : Melody) :
    (∀ index left failure, m.get index = (left, .error failure) →
      (m.ReadsLike left ↔ m.initialized = false ∨ m.events = []) ∧ left.start = m.start ∧
        (m.initialized = true → m.events ≠ [] → index / m.events.length ≠ m.cycle ∧
          (m.Stale left (index / m.events.length) ∨ left.Silent (index / m.events.length)))) ∧
      ∀ options left failure, m.init options = (left, .error failure) →
        left.events = m.events ∧ left.start = options ∧ left.cycle = 0 ∧ left.cursor = 0 ∧
          (m.ReadsLike left ↔ m.start = options ∧ m.cycle = 0 ∧ m.cursor = 0) := by
  constructor
  · intro index left failure h
    rcases get_of_error h with ⟨rfl, hnothing⟩ | ⟨hready, hsounds, hother, hstart, hleft⟩
    · refine ⟨⟨fun _ => hnothing, fun _ => ⟨rfl, rfl, rfl, rfl⟩⟩, rfl, ?_⟩
      intro hready hsounds
      rcases hnothing with hnot | hempty
      · rw [hready] at hnot
        cases hnot
      · exact absurd hempty hsounds
    · have hcycle : left.cycle = index / m.events.length := by
        rcases hleft with hstale | hsilent
        · exact hstale.current
        · exact hsilent.current
      refine ⟨⟨?_, ?_⟩, hstart, fun _ _ => ⟨hother, hleft⟩⟩
      · intro hreads
        exact absurd (hcycle.symm.trans hreads.cycle) hother
      · rintro (hnot | hempty)
        · rw [hready] at hnot
          cases hnot
        · exact absurd hempty hsounds
  · intro options left failure h
    obtain ⟨hevents, hstart, hcycle, hcursor⟩ := init_of_error h
    refine ⟨hevents, hstart, hcycle, hcursor, ?_, ?_⟩
    · intro hreads
      exact ⟨hreads.start.symm.trans hstart, hreads.cycle.symm.trans hcycle, hreads.cursor.symm.trans hcursor⟩
    · rintro ⟨rfl, hzero, hback⟩
      exact ⟨hevents, hcycle.trans hzero.symm, hcursor.trans hback.symm, hstart⟩

/-- The failed access of the second cycle, and a failed start. -/
theorem second_evaluation_leaves :
    ∃ fresh m left restarted failure failure', Melody.read "(4)/(<2 0 1>)" = .ok fresh ∧
      fresh.init { seed := some 0 } = (m, .ok ()) ∧ m.get 1 = (left, .error failure) ∧ m.Stale left 1 ∧
      m.init { octave := 1 } = (restarted, .error failure') ∧ restarted.start = { octave := 1 } := by
  obtain ⟨fresh, m, left, restarted, failure, failure', hread, hinit, hready, hlength, -, hget, hleft, hagain⟩ :=
    second_evaluation_fails
  have hsounds : m.events ≠ [] := List.ne_nil_of_length_pos (by omega)
  obtain ⟨-, -, hbegun⟩ := (failed_calls_leave m).1 1 left failure hget
  obtain ⟨-, hstart, -⟩ := (failed_calls_leave m).2 { octave := 1 } restarted failure' hagain
  refine ⟨fresh, m, left, restarted, failure, failure', hread, hinit, hget, ?_, hagain, hstart⟩
  rcases (hbegun hready hsounds).2 with hstale | hsilent
  · rw [hlength, Nat.div_one] at hstale
    exact hstale
  · rw [hsilent.events] at hleft
    cases hleft

/-- After the failure the index of the second cycle finds the event of the first. -/
theorem first_event_in_second_cycle :
    ∃ fresh m left failure e, Melody.read "(4)/(<2 0 1>)" = .ok fresh ∧
      fresh.init { seed := some 0 } = (m, .ok ()) ∧ m.get 1 = (left, .error failure) ∧ ¬ m.ReadsLike left ∧
      m.cycle = 0 ∧ left.cycle = 1 ∧ e ∈ m.events ∧ (left.get 1).2 = .ok e := by
  obtain ⟨fresh, m, left, -, failure, -, hread, hinit, hready, hlength, hcycle, hget, hleft, -⟩ :=
    second_evaluation_fails
  rcases get_of_error hget with ⟨-, hnot | hempty⟩ | ⟨-, -, hother, -, hstale | hsilent⟩
  · rw [hready] at hnot
    cases hnot
  · rw [hempty] at hlength
    cases hlength
  · rw [hlength, Nat.div_one] at hother hstale
    obtain ⟨e, he, hread'⟩ := hstale.reads 1 (by rw [hlength])
    refine ⟨fresh, m, left, failure, e, hread, hinit, hget, ?_, hcycle, hstale.current, he, congrArg Prod.snd hread'⟩
    intro hreads
    exact hother (hstale.current.symm.trans hreads.cycle)
  · rw [hsilent.events] at hleft
    cases hleft

end NumberedMelody.Melody
