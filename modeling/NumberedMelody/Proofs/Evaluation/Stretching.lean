/-
  NumberedMelody/Proofs/Evaluation/Stretching.lean
  ================================================
  **Layers are stretched as one.**  A polyphony lasts as long as its longest layer.
  To stretch it, every event in its layers is given a duration in proportion, and a
  polyphony among them works out a proportion of its own, from its own longest
  layer, unless it lasts no time.  Without rounding all these proportions are the
  same: every event at any depth that lasts some time lasts longer by one factor
  (`Event.layers_stretch_as_one`).
-/
import Mathlib.Algebra.Order.BigOperators.Group.List
import NumberedMelody.Proofs.Evaluation.Sharing
import NumberedMelody.Proofs.Quantity

namespace NumberedMelody

namespace Event

/-! ### Parts -/

section Parts

variable {τ : Type}

mutual

/-- The event itself and the events in its layers, at any depth. -/
def parts : Event τ → List (Event τ)
  | .pitch p => [.pitch p]
  | .chord c => [.chord c]
  | .rest r => [.rest r]
  | .sample s => [.sample s]
  | .function f => [.function f]
  | .polyphony text layers => .polyphony text layers :: partsOfLayers layers

def partsOfLayer : List (Event τ) → List (Event τ)
  | [] => []
  | e :: more => parts e ++ partsOfLayer more

def partsOfLayers : List (List (Event τ)) → List (Event τ)
  | [] => []
  | layer :: more => partsOfLayer layer ++ partsOfLayers more

end

theorem head?_parts (e : Event τ) : e.parts.head? = some e := by cases e <;> rfl

theorem self_mem_parts (e : Event τ) : e ∈ e.parts := List.mem_of_mem_head? (head?_parts e)

end Parts

/-! ### Parts last no longer than the whole -/

/-- No event among these lasts less than no time. -/
def NoneNegative (events : List (Event Rat)) : Prop := ∀ e ∈ events, ∀ x ∈ e.duration, 0 ≤ x

theorem noneNegative_append {events others : List (Event Rat)} :
    NoneNegative (events ++ others) ↔ NoneNegative events ∧ NoneNegative others := List.forall_mem_append

theorem sum_durations_nonneg (layer : List (Event Rat)) (h : NoneNegative (partsOfLayer layer)) :
    0 ≤ (durations layer).sum := by
  induction layer with
  | nil => exact le_rfl
  | cons e more ih =>
    rw [partsOfLayer, noneNegative_append] at h
    rw [durations]
    cases hd : e.duration with
    | none => exact ih h.2
    | some d => exact add_nonneg (h.1 e (self_mem_parts e) d hd) (ih h.2)

mutual

theorem le_of_mem_parts : ∀ e : Event Rat, NoneNegative e.parts → ∀ part ∈ e.parts, ∀ x, part.duration = some x →
    ∃ y, e.duration = some y ∧ x ≤ y
  | .pitch _, _, _, hpart, x, hx | .chord _, _, _, hpart, x, hx | .rest _, _, _, hpart, x, hx
  | .sample _, _, _, hpart, x, hx | .function _, _, _, hpart, x, hx => by
    obtain rfl := List.mem_singleton.mp hpart
    exact ⟨x, hx, le_rfl⟩
  | .polyphony text layers, h, part, hpart, x, hx => by
    rcases List.mem_cons.mp hpart with rfl | hpart
    · exact ⟨x, hx, le_rfl⟩
    · have hinside : NoneNegative (partsOfLayers layers) := fun e he => h e (List.mem_cons_of_mem _ he)
      obtain ⟨total, htotal, hle⟩ := le_of_mem_partsOfLayers layers hinside part hpart x hx
      exact ⟨longest layers, rfl, hle.trans (Quantity.le_greatest htotal)⟩

theorem le_of_mem_partsOfLayer : ∀ layer : List (Event Rat), NoneNegative (partsOfLayer layer) →
    ∀ part ∈ partsOfLayer layer, ∀ x, part.duration = some x → x ≤ (durations layer).sum
  | [], _, _, hpart, _, _ => nomatch hpart
  | e :: more, h, part, hpart, x, hx => by
    have hmore := h
    rw [partsOfLayer, noneNegative_append] at hmore
    have htotal := sum_durations_nonneg more hmore.2
    rw [durations]
    rcases List.mem_append.mp hpart with hpart | hpart
    · obtain ⟨y, hy, hle⟩ := le_of_mem_parts e hmore.1 part hpart x hx
      simp only [hy, List.sum_cons]
      exact hle.trans (le_add_of_nonneg_right htotal)
    · have hle := le_of_mem_partsOfLayer more hmore.2 part hpart x hx
      cases hd : e.duration with
      | none => exact hle
      | some d => exact hle.trans (le_add_of_nonneg_left (hmore.1 e (self_mem_parts e) d hd))

theorem le_of_mem_partsOfLayers : ∀ layers : List (List (Event Rat)), NoneNegative (partsOfLayers layers) →
    ∀ part ∈ partsOfLayers layers, ∀ x, part.duration = some x → ∃ total ∈ layerDurations layers, x ≤ total
  | [], _, _, hpart, _, _ => nomatch hpart
  | layer :: more, h, part, hpart, x, hx => by
    rw [partsOfLayers, noneNegative_append] at h
    rw [layerDurations]
    rcases List.mem_append.mp hpart with hpart | hpart
    · have hle := le_of_mem_partsOfLayer layer h.1 part hpart x hx
      rw [← Quantity.sum_eq_sum] at hle
      exact ⟨_, List.mem_cons_self, hle⟩
    · obtain ⟨total, htotal, hle⟩ := le_of_mem_partsOfLayers more h.2 part hpart x hx
      exact ⟨total, List.mem_cons_of_mem _ htotal, hle⟩

end

/-- In what lasts no time, everything lasts no time. -/
theorem eq_zero_of_mem_parts {e part : Event Rat} (h : NoneNegative e.parts) (hzero : e.duration = some 0)
    (hpart : part ∈ e.parts) {x : Rat} (hx : part.duration = some x) : x = 0 := by
  obtain ⟨y, hy, hle⟩ := le_of_mem_parts e h part hpart x hx
  obtain rfl := Option.some.inj (hzero.symm.trans hy)
  exact le_antisymm hle (h part hpart x hx)

/-! ### Stretching by one factor -/

/-- The same events at any depth, those that last some time lasting longer by a factor. -/
def StretchedBy (factor : Rat) (events events' : List (Event Rat)) : Prop :=
  events'.map duration = events.map fun e => e.duration.map (· * factor)

namespace StretchedBy

variable {factor : Rat} {e e' : Event Rat} {events events' others others' layer layer' : List (Event Rat)}
  {layers layers' : List (List (Event Rat))}

theorem append (h : StretchedBy factor events events') (hothers : StretchedBy factor others others') :
    StretchedBy factor (events ++ others) (events' ++ others') := by
  unfold StretchedBy at *
  rw [List.map_append, List.map_append, h, hothers]

theorem lone (h : e'.duration = e.duration.map (· * factor)) : StretchedBy factor [e] [e'] := congrArg ([·]) h

/-- What lasts no time lasts no longer by any factor. -/
theorem still (h : ∀ e ∈ events, ∀ x, e.duration = some x → x = 0) : StretchedBy factor events events := by
  apply List.map_congr_left
  intro e he
  cases hd : e.duration with
  | none => rfl
  | some x =>
    obtain rfl := h e he x hd
    simp

theorem duration_eq (h : StretchedBy factor e.parts e'.parts) : e'.duration = e.duration.map (· * factor) := by
  have hhead := congrArg List.head? h
  rw [List.head?_map, List.head?_map, head?_parts, head?_parts] at hhead
  exact Option.some.inj hhead

theorem durations_eq (h : List.Forall₂ (fun e e' => StretchedBy factor e.parts e'.parts) layer layer') :
    durations layer' = (durations layer).map (· * factor) := by
  induction h with
  | nil => rfl
  | @cons e e' _ _ hfirst _ ih =>
    rw [durations, durations, hfirst.duration_eq]
    cases e.duration with
    | none => exact ih
    | some d => exact congrArg (d * factor :: ·) ih

theorem partsOfLayer (h : List.Forall₂ (fun e e' => StretchedBy factor e.parts e'.parts) layer layer') :
    StretchedBy factor (partsOfLayer layer) (partsOfLayer layer') := by
  induction h with
  | nil => rfl
  | cons hfirst _ ih => exact hfirst.append ih

theorem partsOfLayers
    (h : List.Forall₂ (List.Forall₂ fun e e' => StretchedBy factor e.parts e'.parts) layers layers') :
    StretchedBy factor (partsOfLayers layers) (partsOfLayers layers') := by
  induction h with
  | nil => rfl
  | cons hfirst _ ih => exact (partsOfLayer hfirst).append ih

theorem layerDurations_eq
    (h : List.Forall₂ (List.Forall₂ fun e e' => StretchedBy factor e.parts e'.parts) layers layers') :
    layerDurations layers' = (layerDurations layers).map (· * factor) := by
  induction h with
  | nil => rfl
  | cons hfirst _ ih =>
    rw [layerDurations, layerDurations, durations_eq hfirst, Quantity.sum_map_mul, ih, List.map_cons]

/-- What the layers last longer by, the longest of them lasts longer by. -/
theorem polyphony (hfactor : 0 ≤ factor) (text : String)
    (h : List.Forall₂ (List.Forall₂ fun e e' => StretchedBy factor e.parts e'.parts) layers layers') :
    StretchedBy factor (Event.polyphony text layers).parts (Event.polyphony text layers').parts := by
  have hlongest : longest layers' = longest layers * factor := by
    rw [longest, layerDurations_eq h, Quantity.greatest_map_mul _ hfactor, longest]
  have hown : (Event.polyphony text layers').duration = (Event.polyphony text layers).duration.map (· * factor) :=
    congrArg some hlongest
  exact List.cons_eq_cons.mpr ⟨hown, partsOfLayers h⟩

end StretchedBy

mutual

/-- **A duration longer by a factor is handed on by that factor.** -/
theorem stretchedBy_setDuration {factor : Rat} (hfactor : 0 ≤ factor) : ∀ e : Event Rat, NoneNegative e.parts →
    ∀ x, e.duration = some x → StretchedBy factor e.parts (e.setDuration (x * factor)).parts
  | .pitch _, _, x, hx | .chord _, _, x, hx | .rest _, _, x, hx | .sample _, _, x, hx | .function _, _, x, hx =>
    .lone (congrArg (Option.map (· * factor)) hx.symm)
  | .polyphony text layers, h, x, hx => by
    obtain rfl : longest layers = x := Option.some.inj hx
    have hinside : NoneNegative (partsOfLayers layers) := fun e he => h e (List.mem_cons_of_mem _ he)
    rw [setDuration]
    split
    · next hnone =>
      -- layers that last no time are left alone, and so is everything in them
      have hle : longest layers ≤ 0 := of_decide_eq_true hnone
      have hzero : longest layers = 0 := le_antisymm hle (h _ (self_mem_parts _) _ rfl)
      exact .still fun part hpart x hx => eq_zero_of_mem_parts h (congrArg some hzero) hpart hx
    · next hsome =>
      -- the proportion that a polyphony works out anew is the one that it was stretched by
      have hpos : 0 < longest layers := not_le.mp fun hle => hsome (decide_eq_true hle)
      rw [mul_div_cancel_left₀ factor hpos.ne']
      exact .polyphony hfactor text (stretchedBy_stretchLayers hfactor layers hinside)

theorem stretchedBy_stretchLayer {factor : Rat} (hfactor : 0 ≤ factor) : ∀ layer : List (Event Rat),
    NoneNegative (partsOfLayer layer) →
      List.Forall₂ (fun e e' => StretchedBy factor e.parts e'.parts) layer (stretchLayer factor layer)
  | [], _ => .nil
  | e :: more, h => by
    rw [partsOfLayer, noneNegative_append] at h
    have hmore := stretchedBy_stretchLayer hfactor more h.2
    rw [stretchLayer]
    cases hd : e.duration with
    | some d => exact .cons (stretchedBy_setDuration hfactor e h.1 d hd) hmore
    | none =>
      refine .cons (.still fun part hpart x hx => ?_) hmore
      obtain ⟨y, hy, -⟩ := le_of_mem_parts e h.1 part hpart x hx
      rw [hd] at hy
      cases hy

theorem stretchedBy_stretchLayers {factor : Rat} (hfactor : 0 ≤ factor) : ∀ layers : List (List (Event Rat)),
    NoneNegative (partsOfLayers layers) →
      List.Forall₂ (List.Forall₂ fun e e' => StretchedBy factor e.parts e'.parts) layers (stretchLayers factor layers)
  | [], _ => .nil
  | layer :: more, h => by
    rw [partsOfLayers, noneNegative_append] at h
    rw [stretchLayers]
    exact .cons (stretchedBy_stretchLayer hfactor layer h.1) (stretchedBy_stretchLayers hfactor more h.2)

end

/-- **Layers are stretched as one.**  If no event in the layers lasts less than no
    time, and they last some time, they can be made to last any other time.  Then
    they last exactly that time, every event at any depth that lasts some time lasts
    longer in the proportion of the new time to the old, and so does every layer.
    What had no duration has none, and nothing but durations changes. -/
theorem layers_stretch_as_one (text : String) (layers : List (List (Event Rat))) {old d : Rat}
    (hold : (polyphony text layers).duration = some old) (hpos : 0 < old) (hnone : NoneNegative (partsOfLayers layers))
    (hd : 0 ≤ d) :
    ∃ layers', (polyphony text layers).setDuration d = .polyphony text layers' ∧
      (polyphony text layers').duration = some d ∧
      (partsOfLayers layers').map duration = (partsOfLayers layers).map (fun e => e.duration.map (· * d / old)) ∧
      layerDurations layers' = (layerDurations layers).map (· * d / old) ∧
      untimedLayers layers' = untimedLayers layers := by
  obtain rfl : longest layers = old := Option.some.inj hold
  have hfactor : 0 ≤ d / longest layers := div_nonneg hd hpos.le
  have hlayers := stretchedBy_stretchLayers hfactor layers hnone
  have hset : (polyphony text layers).setDuration d = .polyphony text (stretchLayers (d / longest layers) layers) := by
    have hsome : ¬Quantity.isAtMost (longest layers) Quantity.zero = true := fun h => hpos.not_ge (of_decide_eq_true h)
    rw [setDuration, if_neg hsome]
  have hwhole := (StretchedBy.polyphony hfactor text hlayers).duration_eq
  refine ⟨_, hset, ?_, ?_, ?_, untimedLayers_stretchLayers _ layers⟩
  · rw [hwhole, hold, Option.map_some, mul_div_cancel₀ d hpos.ne']
  · simp only [mul_div_assoc]
    exact StretchedBy.partsOfLayers hlayers
  · simp only [mul_div_assoc]
    exact StretchedBy.layerDurations_eq hlayers

/-- A rest, a chord without a duration, and layers inside of layers, the shorter of
    which last no time.  All of it is made to last three quarters as long. -/
theorem nested_layers_stretch :
    let rest (d : Rat) : Event Rat := .rest { text := "r", duration := some d }
    let chord : Event Rat := .chord { text := "02", tones := [] }
    let inner : Event Rat :=
      .polyphony "CD" [[rest (1 / 8), rest (1 / 8)], [rest (1 / 4), .polyphony "EF" [[rest 0], []]]]
    let layers := [[rest (1 / 2), chord, inner, rest (1 / 4)], [rest (1 / 2)]]
    (polyphony "AB" layers).duration = some 1 ∧ NoneNegative (partsOfLayers layers) ∧
      ∃ layers', (polyphony "AB" layers).setDuration (3 / 4) = .polyphony "AB" layers' ∧
        (polyphony "AB" layers').duration = some (3 / 4) ∧
        (partsOfLayers layers').map duration =
          [some (3 / 8), none, some (3 / 16), some (3 / 32), some (3 / 32), some (3 / 16), some 0, some 0,
            some (3 / 16), some (3 / 8)] ∧
        layerDurations layers' = [3 / 4, 3 / 8] := by
  intro rest chord inner layers
  have hold : (polyphony "AB" layers).duration = some 1 := by decide +kernel
  have hnone : NoneNegative (partsOfLayers layers) := by
    unfold NoneNegative
    decide +kernel
  obtain ⟨layers', hset, hwhole, hparts, htotals, -⟩ :=
    layers_stretch_as_one "AB" layers hold one_pos hnone (by decide +kernel : (0 : Rat) ≤ 3 / 4)
  refine ⟨hold, hnone, layers', hset, hwhole, hparts.trans ?_, htotals.trans ?_⟩
  · decide +kernel
  · decide +kernel

end Event

end NumberedMelody
