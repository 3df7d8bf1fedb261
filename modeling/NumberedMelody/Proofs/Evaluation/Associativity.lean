/-
  NumberedMelody/Proofs/Evaluation/Associativity.lean
  ===================================================
  **Addition and multiplication of lists are associative.**  Nested either way,
  they go through the same triples of pitches in the same order.  A pitch that is
  derived twice is the one derived at once, for what it took from the options
  the first time it keeps (`ListArithmetic.derive_derive`), and the operators are
  associative on integers.  So wherever both ways succeed, they give the same
  events in all fields (`ListArithmetic.combine_associative`).
-/
import NumberedMelody.Proofs.Evaluation.Degrees
import NumberedMelody.Proofs.Evaluation.Product

namespace NumberedMelody

namespace Arithmetic

/-- The operators that are associative on integers. -/
def Associative (op : Arithmetic) : Prop := op = .add ∨ op = .multiply

variable {op : Arithmetic}

theorem Associative.exact_assoc (hop : op.Associative) (a b c : Int) :
    op.exact (op.exact a b) c = op.exact a (op.exact b c) := by
  rcases hop with rfl | rfl
  · exact Int.add_assoc a b c
  · exact Int.mul_assoc a b c

theorem Associative.eq_exact {a b result : Int} (hop : op.Associative) (h : op.apply a b = .ok result) :
    result = op.exact a b := by
  obtain ⟨-, hchecked⟩ := apply_eq_ok_iff.mp h
  rcases hop with rfl | rfl
  · exact (checked32_eq_some_iff.mp hchecked).2
  · exact (checked32_eq_some_iff.mp hchecked).2

end Arithmetic

namespace ListArithmetic

variable {op : Arithmetic} {o : Options}

/-- Deriving a pitch from a derived one is deriving it from the first. -/
theorem derive_derive (template : Pitch) (degree degree' : Int) (o : Options) :
    derive (derive template degree o) degree' o = derive template degree' o := by
  obtain ⟨note, frequency, bend, heq⟩ := derive_eq template degree o
  rw [heq]
  simp [derive, Pitch.adopt, Option.or_assoc]

/-- Every pitch of the right list with every pitch of the left, over the integers. -/
def grid (op : Arithmetic) (o : Options) (left right : List Pitch) : List Pitch :=
  right.flatMap fun b => left.map fun a => derive a (op.exact a.degree b.degree) o

theorem product_map {α β α' β' : Type} (f : α → α') (g : β → β') (xs : List α) (ys : List β) :
    xs.map f ×ˢ ys.map g = (xs ×ˢ ys).map (Prod.map f g) := by
  induction xs with
  | nil => rfl
  | cons x more ih =>
    rw [List.map_cons, List.product_cons, List.product_cons, List.map_append, ih, List.map_map, List.map_map]
    rfl

theorem grid_eq_map (op : Arithmetic) (o : Options) (left right : List Pitch) :
    grid op o left right =
      (right ×ˢ left).map fun pair => derive pair.2 (op.exact pair.2.degree pair.1.degree) o := by
  induction right with
  | nil => rfl
  | cons b more ih =>
    rw [grid, List.flatMap_cons, List.product_cons, List.map_append, List.map_map, ← ih]
    rfl

theorem filter_isPitched (pitches : List Pitch) :
    (pitches.map Event.pitch).filter Event.isPitched = pitches.map Event.pitch := by
  rw [List.filter_eq_self]
  intro e he
  obtain ⟨p, -, rfl⟩ := List.mem_map.mp he
  rfl

/-- What lists of pitches are combined into, if nothing overflows. -/
theorem combine_pitches_eq_ok (hop : op.Associative) {left right : List Pitch} {events : List Event}
    (h : combine op o (left.map .pitch) (right.map .pitch) = .ok events) :
    events = (grid op o left right).map .pitch := by
  rw [combine_eq_mapM, eventPairs, filter_isPitched, filter_isPitched, product_map] at h
  have hpairs := List.forall₂_map_left_iff.mp (forall₂_of_mapM_eq_ok h)
  rw [grid_eq_map, List.map_map, eq_comm, ← List.forall₂_eq_eq_eq, List.forall₂_map_left_iff]
  refine hpairs.imp fun pair e hpair => ?_
  obtain ⟨p, hp, hpair⟩ := bind_eq_ok.mp hpair
  obtain ⟨result, hresult, rfl⟩ := combinePitch_eq_ok hp
  rw [← Except.ok.inj hpair, hop.eq_exact hresult]
  rfl

/-- Both ways go through the same triples, and the derived pitches agree. -/
theorem grid_assoc (hop : op.Associative) (o : Options) (first second third : List Pitch) :
    grid op o (grid op o first second) third = grid op o first (grid op o second third) := by
  have htriple (a b c : Pitch) :
      derive (derive a (op.exact a.degree b.degree) o) (op.exact (op.exact a.degree b.degree) c.degree) o =
        derive a (op.exact a.degree (op.exact b.degree c.degree)) o := by
    rw [derive_derive, hop.exact_assoc]
  simp only [grid, List.flatMap_assoc, List.flatMap_map, List.map_flatMap, List.map_map, Function.comp_def,
    degree_derive, htriple]

/-- **Addition and multiplication of lists of pitches are associative**, in the
    order and in all fields of the events, wherever both ways of nesting succeed. -/
theorem combine_associative (hop : op = .add ∨ op = .multiply) (o : Options) (first second third : List Pitch)
    {left right : List Event}
    (hleft : (combine op o (first.map .pitch) (second.map .pitch)).bind
      (fun events => combine op o events (third.map .pitch)) = .ok left)
    (hright : (combine op o (second.map .pitch) (third.map .pitch)).bind
      (fun events => combine op o (first.map .pitch) events) = .ok right) :
    left = right := by
  have hop : op.Associative := hop
  obtain ⟨firstSecond, hfirst, hleft⟩ := bind_eq_ok.mp hleft
  obtain ⟨secondThird, hsecond, hright⟩ := bind_eq_ok.mp hright
  rw [combine_pitches_eq_ok hop hfirst] at hleft
  rw [combine_pitches_eq_ok hop hsecond] at hright
  rw [combine_pitches_eq_ok hop hleft, combine_pitches_eq_ok hop hright, grid_assoc hop]

theorem sums_of_three_lists_associate :
    let first : List Pitch := [.ofDegree 1, .ofDegree 2]
    let second : List Pitch := [.ofDegree 10, .ofDegree (-20)]
    let third : List Pitch := [.ofDegree 100]
    ∃ left right,
      (combine .add {} (first.map .pitch) (second.map .pitch)).bind
        (fun events => combine .add {} events (third.map .pitch)) = .ok left ∧
      (combine .add {} (second.map .pitch) (third.map .pitch)).bind
        (fun events => combine .add {} (first.map .pitch) events) = .ok right ∧
      left.map (fun e => e.pitch?.map (·.degree)) = [some 111, some 112, some 81, some 82] ∧ left = right := by
  intro first second third
  exact ⟨_, _, rfl, rfl, rfl, combine_associative (.inl rfl) {} first second third rfl rfl⟩

end ListArithmetic

end NumberedMelody
