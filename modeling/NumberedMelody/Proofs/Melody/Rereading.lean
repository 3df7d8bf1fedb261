/-
  NumberedMelody/Proofs/Melody/Rereading.lean
  ===========================================
  **Reading an index again.**  An access divides its index by the length of the
  cycle that the melody holds, and puts down the quotient as the number of the
  cycle it enters.  The evaluation may put a cycle of another length in place,
  and the next access divides by that one.  So the same index is found in the
  same cycle again exactly if both lengths give it the same quotient; otherwise
  the tree is evaluated once more (`rereading_stays_iff`).
-/
import NumberedMelody.Proofs.Melody.Failing

namespace NumberedMelody.Melody

variable {m left : Melody} {index : Nat} {e : Event}

/-! ### What an access leaves -/

/-- Another cycle is entered by evaluating the tree, and is held under its number
    whether that fails or not. -/
theorem get_of_other_cycle (hready : m.initialized = true) (hsounds : m.events ≠ [])
    (hother : index / m.events.length ≠ m.cycle) :
    m.get index =
      ({ m.reEvaluate.1 with cycle := index / m.events.length },
        m.reEvaluate.2.bind fun _ => m.reEvaluate.1.eventAt index) := by
  have henter : m.inCycle (index / m.events.length) =
      ({ m.reEvaluate.1 with cycle := index / m.events.length }, m.reEvaluate.2) := by
    unfold inCycle
    rw [if_neg hother, reEvaluate_cycle]
  unfold get
  rw [hready, cycleLength_of_sounds hsounds]
  simp only [Bool.not_true, Bool.false_eq_true, if_false, henter]
  rcases m.reEvaluate.2 with failure | done <;> rfl

/-- An access that has begun puts down the quotient. -/
theorem cycle_get (hready : m.initialized = true) (hsounds : m.events ≠ []) (index : Nat) :
    (m.get index).1.cycle = index / m.events.length := by
  by_cases hsame : index / m.events.length = m.cycle
  · rw [get_of_same_cycle hready hsounds hsame, hsame]
  · rw [get_of_other_cycle hready hsounds hsame]

theorem sounds_of_eventAt (h : m.eventAt index = .ok e) : m.events ≠ [] := by
  intro hempty
  simp only [eventAt, hempty, List.getElem?_nil] at h
  cases h

/-- An access that yields has begun, and leaves a melody that holds its event. -/
theorem get_eq_ok (h : m.get index = (left, .ok e)) :
    m.initialized = true ∧ m.events ≠ [] ∧ left.initialized = true ∧ left.eventAt index = .ok e := by
  cases hready : m.initialized with
  | false =>
    unfold get at h
    rw [hready] at h
    cases h
  | true =>
    by_cases hempty : m.events = []
    · rw [get_of_empty hready hempty index] at h
      cases h
    · refine ⟨rfl, hempty, ?_⟩
      by_cases hsame : index / m.events.length = m.cycle
      · rw [get_of_same_cycle hready hempty hsame] at h
        obtain ⟨rfl, hevent⟩ := Prod.mk.inj h
        exact ⟨hready, hevent⟩
      · rw [get_of_other_cycle hready hempty hsame] at h
        obtain ⟨rfl, hresult⟩ := Prod.mk.inj h
        obtain ⟨-, -, hevent⟩ := bind_eq_ok.mp hresult
        exact ⟨(reEvaluate_initialized m).trans hready, hevent⟩

/-- **The same index again.**  Both accesses put down their quotients, so the
    second one changes nothing only if these are the same. -/
theorem get_again_iff (h : m.get index = (left, .ok e)) :
    left.get index = (left, .ok e) ↔ index / left.events.length = index / m.events.length := by
  obtain ⟨hready, hsounds, hready', hevent⟩ := get_eq_ok h
  have hsounds' := sounds_of_eventAt hevent
  have hcycle : left.cycle = index / m.events.length := by
    have hput := cycle_get hready hsounds index
    rwa [h] at hput
  constructor
  · intro hagain
    have hput := cycle_get hready' hsounds' index
    rw [hagain] at hput
    exact hput.symm.trans hcycle
  · intro hquotients
    rw [get_of_same_cycle hready' hsounds' (hquotients.trans hcycle.symm), hevent]

/-! ### All indices of a melody -/

/-- Far enough out, two lengths that give one quotient are one. -/
theorem eq_of_quotients {a b k : Nat} (ha : 0 < a) (hb : 0 < b) (hk : 0 < k)
    (h : a * b * k / b = a * b * k / a) : b = a := by
  have hleft : a * b * k / b = a * k := by
    rw [Nat.mul_right_comm, Nat.mul_div_cancel _ hb]
  have hright : a * b * k / a = b * k := by
    rw [Nat.mul_assoc, Nat.mul_div_cancel_left _ ha]
  rw [hleft, hright] at h
  exact (Nat.eq_of_mul_eq_mul_right hk h).symm

/-- If the next evaluation yields a cycle of another length, an index far enough
    out cannot be read from it twice. -/
theorem length_of_rereading (hready : m.initialized = true) (hsounds : m.events ≠ []) {events : List Event}
    (hresult : (evaluate m.nodes (.ofOptions m.start) m.source).result = .ok events) (hevents : events ≠ [])
    (hstays : ∀ index left e, m.get index = (left, .ok e) → left.get index = (left, .ok e)) :
    events.length = m.events.length := by
  have hlength := List.length_pos_iff.mpr hsounds
  have hlength' := List.length_pos_iff.mpr hevents
  obtain ⟨hyields, hheld, -⟩ := reEvaluate_of_result hresult
  generalize hfar : m.events.length * events.length * (m.cycle + 1) = far
  have hother : far / m.events.length ≠ m.cycle := by
    have hquotient : far / m.events.length = events.length * (m.cycle + 1) := by
      rw [← hfar, Nat.mul_assoc, Nat.mul_div_cancel_left _ hlength]
    have hbeyond := Nat.le_mul_of_pos_left (m.cycle + 1) hlength'
    omega
  obtain ⟨e, -, he⟩ := eventAt_of_sounds (m := m.reEvaluate.1) (hheld ▸ hevents) far
  have hget := get_of_other_cycle hready hsounds hother
  rw [hyields, Except.bind, he] at hget
  have hquotients := (get_again_iff hget).mp (hstays far _ e hget)
  rw [hheld, ← hfar] at hquotients
  exact eq_of_quotients hlength hlength' (Nat.succ_pos m.cycle) hquotients

/-- A next evaluation of the same length keeps every index where it was read. -/
theorem rereading_of_length
    (hlengths : ∀ events, (evaluate m.nodes (.ofOptions m.start) m.source).result = .ok events → events ≠ [] →
      events.length = m.events.length)
    (h : m.get index = (left, .ok e)) : left.get index = (left, .ok e) := by
  obtain ⟨hready, hsounds, -, hevent⟩ := get_eq_ok h
  refine (get_again_iff h).mpr ?_
  by_cases hsame : index / m.events.length = m.cycle
  · rw [get_of_same_cycle hready hsounds hsame] at h
    obtain ⟨rfl, -⟩ := Prod.mk.inj h
    rfl
  · rw [get_of_other_cycle hready hsounds hsame] at h
    obtain ⟨rfl, hresult⟩ := Prod.mk.inj h
    have hheld : m.reEvaluate.1.events.length = m.events.length := by
      cases heval : (evaluate m.nodes (.ofOptions m.start) m.source).result with
      | error failure =>
        rw [reEvaluate, heval] at hresult
        cases hresult
      | ok events =>
        obtain ⟨-, hheld, -⟩ := reEvaluate_of_result heval
        have hsounds' := sounds_of_eventAt hevent
        rw [hheld] at hsounds' ⊢
        exact hlengths events heval hsounds'
    rw [hheld]

/-- **When reading an index again changes nothing.**  A second access to an index
    that an event was read from leaves the melody alone and yields the event
    again exactly if the cycles held before and after the first access give the
    index the same quotient; in any case it puts down the quotient by the later
    one.  So all indices of a melody can be read again exactly if the next
    evaluation of its tree, where it yields events at all, yields as many as the
    melody holds. -/
theorem rereading_stays_iff (m : Melody) :
    (∀ index left e, m.get index = (left, .ok e) →
      (left.get index = (left, .ok e) ↔ index / left.events.length = index / m.events.length) ∧
        (left.get index).1.cycle = index / left.events.length) ∧
      (m.initialized = true → m.events ≠ [] →
        ((∀ index left e, m.get index = (left, .ok e) → left.get index = (left, .ok e)) ↔
          ∀ events, (evaluate m.nodes (.ofOptions m.start) m.source).result = .ok events → events ≠ [] →
            events.length = m.events.length)) := by
  constructor
  · intro index left e h
    obtain ⟨-, -, hready, hevent⟩ := get_eq_ok h
    exact ⟨get_again_iff h, cycle_get hready (sounds_of_eventAt hevent) index⟩
  · intro hready hsounds
    constructor
    · intro hstays events hresult hevents
      exact length_of_rereading hready hsounds hresult hevents hstays
    · intro hlengths index left e h
      exact rereading_of_length hlengths h

/-- A cycle of two events and then one of three: the fourth index is in the
    second cycle by both lengths, and is read from there twice. -/
theorem fourth_index_read_again :
    ∃ fresh m left e, Melody.read "<(0 1) (2 3 4)>" = .ok fresh ∧ fresh.init { seed := some 0 } = (m, .ok ()) ∧
      m.events.length = 2 ∧ m.get 3 = (left, .ok e) ∧ left.events.length = 3 ∧ left.get 3 = (left, .ok e) := by
  have hcheck : readsAs "<(0 1) (2 3 4)>" (fun fresh =>
      let m := (fresh.init { seed := some 0 }).1
      (fresh.init { seed := some 0 }).2.toOption.isSome && m.events.length == 2 && (m.get 3).2.toOption.isSome &&
        (m.get 3).1.events.length == 3) = true := by decide +kernel
  obtain ⟨fresh, hread, hfresh⟩ := exists_of_readsAs hcheck
  rcases hinit : fresh.init { seed := some 0 } with ⟨m, started⟩
  rcases hget : m.get 3 with ⟨left, item⟩
  simp only [hinit, hget, Bool.and_eq_true, beq_iff_eq] at hfresh
  obtain ⟨⟨⟨hstarts, htwo⟩, hyields⟩, hthree⟩ := hfresh
  cases started with
  | error failure => cases hstarts
  | ok done =>
    cases item with
    | error failure => cases hyields
    | ok e =>
      refine ⟨fresh, m, left, e, hread, hinit, htwo, hget, hthree, ?_⟩
      exact (((rereading_stays_iff m).1 3 left e hget).1).mpr (by rw [htwo, hthree])

/-- A cycle of one event and then one of two: the second index is read from the
    second cycle first, and from a third one when it is read again. -/
theorem second_index_read_again :
    ∃ fresh m left e, Melody.read "<0 (1 2)>" = .ok fresh ∧ fresh.init { seed := some 0 } = (m, .ok ()) ∧
      m.get 1 = (left, .ok e) ∧ (left.get 1).2 ≠ .ok e ∧ (left.get 1).1 ≠ left := by
  have hcheck : readsAs "<0 (1 2)>" (fun fresh =>
      let m := (fresh.init { seed := some 0 }).1
      (fresh.init { seed := some 0 }).2.toOption.isSome &&
        (m.get 1).2.toOption.map Event.text == some "2" &&
        ((m.get 1).1.get 1).2.toOption.map Event.text == some "0" &&
        (m.get 1).1.cycle == 1 && ((m.get 1).1.get 1).1.cycle == 0) = true := by decide +kernel
  obtain ⟨fresh, hread, hfresh⟩ := exists_of_readsAs hcheck
  rcases hinit : fresh.init { seed := some 0 } with ⟨m, started⟩
  rcases hget : m.get 1 with ⟨left, item⟩
  simp only [hinit, hget, Bool.and_eq_true, beq_iff_eq] at hfresh
  obtain ⟨⟨⟨⟨hstarts, hfirst⟩, hsecond⟩, hone⟩, hzero⟩ := hfresh
  cases started with
  | error failure => cases hstarts
  | ok done =>
    cases item with
    | error failure => cases hfirst
    | ok e =>
      refine ⟨fresh, m, left, e, hread, hinit, hget, ?_, ?_⟩
      · intro hsame
        rw [hsame] at hsecond
        exact absurd (hfirst.symm.trans hsecond) (by simp)
      · intro hsame
        rw [hsame, hone] at hzero
        cases hzero

end NumberedMelody.Melody
