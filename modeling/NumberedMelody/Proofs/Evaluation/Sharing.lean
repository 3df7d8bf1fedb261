/-
  NumberedMelody/Proofs/Evaluation/Sharing.lean
  =============================================
  **Subdivisions share their budget exactly.**  Sharing out fails if and only if
  some subdivision, at any depth, has no children.  Otherwise it lists the leaves
  from left to right: one outside of every subdivision as it is, one inside with
  the budget of the outermost subdivision divided by the numbers of children on
  the way down, and with nothing else changed.  Without rounding, the shares add
  up to the budget again (`Step.subdivisions_share_out`).
-/
import Mathlib.Algebra.BigOperators.Group.List.Basic
import Mathlib.Data.List.Forall2
import Mathlib.Tactic.Ring
import NumberedMelody.Evaluation.Step

namespace NumberedMelody

/-! ### What a duration changes -/

namespace Event

variable {τ : Type}

def isPolyphony : Event τ → Bool
  | .polyphony _ _ => true
  | _ => false

def chordTones : Event τ → List (Pitch τ)
  | .chord c => c.tones
  | _ => []

mutual

/-- The event without its durations, those of its tones and those in its layers. -/
def untimed : Event τ → Event τ
  | .pitch p => .pitch { p with duration := none }
  | .chord c => .chord { c with duration := none, tones := c.tones.map fun tone => { tone with duration := none } }
  | .rest r => .rest { r with duration := none }
  | .sample s => .sample { s with duration := none }
  | .function f => .function { f with duration := none }
  | .polyphony text layers => .polyphony text (untimedLayers layers)

def untimedLayer : List (Event τ) → List (Event τ)
  | [] => []
  | e :: more => untimed e :: untimedLayer more

def untimedLayers : List (List (Event τ)) → List (List (Event τ))
  | [] => []
  | layer :: more => untimedLayer layer :: untimedLayers more

end

variable [Quantity τ]

/-- The event lasts so long, and so does every tone of a chord. -/
structure LastsFor (d : τ) (e : Event τ) : Prop where
  own : e.duration = some d
  tones : ∀ tone ∈ e.chordTones, tone.duration = some d

theorem lastsFor_setDuration (d : τ) {e : Event τ} (h : e.isPolyphony = false) : (e.setDuration d).LastsFor d := by
  cases e with
  | chord c =>
    constructor
    · rfl
    · intro tone htone
      obtain ⟨tone, -, rfl⟩ := List.mem_map.mp htone
      rfl
  | polyphony text layers => cases h
  | _ =>
    constructor
    · rfl
    · intro tone htone
      cases htone

mutual

theorem untimed_setDuration (d : τ) : ∀ e : Event τ, (e.setDuration d).untimed = e.untimed
  | .pitch _ => rfl
  | .chord c => by
    rw [setDuration, untimed, untimed]
    simp [Chord.setDuration]
  | .rest _ => rfl
  | .sample _ => rfl
  | .function _ => rfl
  | .polyphony text layers => by
    rw [setDuration]
    split
    · rfl
    · rw [untimed, untimed, untimedLayers_stretchLayers]

theorem untimedLayer_stretchLayer (factor : τ) :
    ∀ layer : List (Event τ), untimedLayer (stretchLayer factor layer) = untimedLayer layer
  | [] => rfl
  | e :: more => by
    rw [stretchLayer]
    cases e.duration with
    | none => rw [untimedLayer, untimedLayer, untimedLayer_stretchLayer factor more]
    | some d => rw [untimedLayer, untimedLayer, untimed_setDuration, untimedLayer_stretchLayer factor more]

theorem untimedLayers_stretchLayers (factor : τ) :
    ∀ layers : List (List (Event τ)), untimedLayers (stretchLayers factor layers) = untimedLayers layers
  | [] => rfl
  | layer :: more => by
    rw [stretchLayers, untimedLayers, untimedLayers, untimedLayer_stretchLayer, untimedLayers_stretchLayers factor more]

end

end Event

namespace Step

/-! ### Leaves -/

/-- An event that waits in a step.  Inside of subdivisions it comes with the
    budget of the outermost one and the numbers of children of all that it is
    in, outermost first. -/
structure Leaf (τ : Type) where
  event : Event τ
  shared : Option (τ × List Nat)

mutual

/-- The leaves of a step inside of subdivisions. -/
def leavesUnder {τ : Type} (budget : τ) (counts : List Nat) : Step τ → List (Leaf τ)
  | .ready e => [⟨e, some (budget, counts)⟩]
  | .subdivided _ steps => leavesEachUnder budget (counts ++ [steps.length]) steps

def leavesEachUnder {τ : Type} (budget : τ) (counts : List Nat) : List (Step τ) → List (Leaf τ)
  | [] => []
  | step :: more => leavesUnder budget counts step ++ leavesEachUnder budget counts more

end

/-- The leaves of a step, from left to right. -/
def leaves {τ : Type} : Step τ → List (Leaf τ)
  | .ready e => [⟨e, none⟩]
  | .subdivided budget steps => leavesEachUnder budget [steps.length] steps

/-- Some subdivision has no children. -/
inductive Hollow {τ : Type} : Step τ → Prop where
  | empty (budget : τ) : Hollow (.subdivided budget [])
  | inside {budget : τ} {steps : List (Step τ)} {step : Step τ} (hmem : step ∈ steps) (hstep : Hollow step) :
    Hollow (.subdivided budget steps)

variable {τ : Type}

theorem not_hollow_ready (e : Event τ) : ¬(ready e).Hollow := by
  rintro ⟨⟩

theorem hollow_subdivided_iff {budget : τ} {step : Step τ} {more : List (Step τ)} :
    (subdivided budget (step :: more)).Hollow ↔ ∃ other ∈ step :: more, other.Hollow := by
  constructor
  · rintro ⟨⟩
    next other hother hmem => exact ⟨other, hmem, hother⟩
  · rintro ⟨other, hmem, hother⟩
    exact .inside hmem hother

variable [Quantity τ]

/-- A budget divided by numbers of children, one after the other. -/
def sharedAmong (budget : τ) (counts : List Nat) : τ :=
  counts.foldl (fun d (children : Nat) => d / Quantity.ofInt children) budget

theorem sharedAmong_append (budget : τ) (counts : List Nat) (children : Nat) :
    sharedAmong budget (counts ++ [children]) = share (sharedAmong budget counts) children := by
  rw [sharedAmong, List.foldl_append]
  rfl

namespace Leaf

/-- The event with its share. -/
def played (leaf : Leaf τ) : Event τ :=
  match leaf.shared with
  | none => leaf.event
  | some (budget, counts) => leaf.event.setDuration (sharedAmong budget counts)

/-- What is to become of a leaf: nothing outside of subdivisions, and inside a
    duration and nothing else. -/
def Becomes (leaf : Leaf τ) (e : Event τ) : Prop :=
  match leaf.shared with
  | none => e = leaf.event
  | some (budget, counts) =>
    e.untimed = leaf.event.untimed ∧ (leaf.event.isPolyphony = false → e.LastsFor (sharedAmong budget counts))

theorem becomes_played (leaf : Leaf τ) : leaf.Becomes leaf.played := by
  obtain ⟨e, shared⟩ := leaf
  cases shared with
  | none => exact rfl
  | some path => exact ⟨e.untimed_setDuration _, fun h => Event.lastsFor_setDuration _ h⟩

end Leaf

/-! ### Results of sharing out

What a step lasts is always a budget divided by counts, and it is these, not the
duration alone, that the induction goes over: so each leaf knows its way down. -/

/-- A result that fails for want of children, or is these leaves played. -/
def Yields (hollow : Prop) (result : Except Failure (List (Event τ))) (leaves : List (Leaf τ)) : Prop :=
  (hollow ∧ result = .error .emptySubdivision) ∨ (¬hollow ∧ result = .ok (leaves.map Leaf.played))

namespace Yields

variable {hollow hollow' : Prop} {x y : Except Failure (List (Event τ))} {leaves leaves' : List (Leaf τ)}

theorem congr (h : Yields hollow x leaves) (hiff : hollow' ↔ hollow) : Yields hollow' x leaves := by
  rw [propext hiff]
  exact h

theorem of_ok {events : List (Event τ)} (h : Yields hollow x leaves) (hx : x = .ok events) :
    ¬hollow ∧ events = leaves.map Leaf.played := by
  rcases h with ⟨-, hfails⟩ | ⟨hfull, hsounds⟩
  · rw [hfails] at hx
    cases hx
  · rw [hsounds] at hx
    exact ⟨hfull, (Except.ok.inj hx).symm⟩

/-- What fails first decides, and either failure is the same. -/
theorem append (hx : Yields hollow x leaves) (hy : Yields hollow' y leaves') :
    Yields (hollow ∨ hollow') (x.bind fun first => y.bind fun others => .ok (first ++ others)) (leaves ++ leaves') := by
  rcases hx with ⟨hhollow, rfl⟩ | ⟨hfull, rfl⟩
  · exact .inl ⟨.inl hhollow, rfl⟩
  · rcases hy with ⟨hhollow, rfl⟩ | ⟨hfull', rfl⟩
    · exact .inl ⟨.inr hhollow, rfl⟩
    · refine .inr ⟨not_or.mpr ⟨hfull, hfull'⟩, ?_⟩
      rw [List.map_append]
      rfl

end Yields

mutual

theorem eventsLasting_yields (budget : τ) (counts : List Nat) :
    ∀ step : Step τ,
      Yields step.Hollow (step.eventsLasting (sharedAmong budget counts)) (step.leavesUnder budget counts)
  | .ready e => .inr ⟨not_hollow_ready e, rfl⟩
  | .subdivided inner [] => .inl ⟨.empty inner, by rw [eventsLasting]⟩
  | .subdivided inner (step :: more) => by
    rw [eventsLasting, leavesUnder, ← List.length_cons (a := step), ← sharedAmong_append]
    exact (eventsEachLasting_yields budget _ (step :: more)).congr hollow_subdivided_iff

theorem eventsEachLasting_yields (budget : τ) (counts : List Nat) :
    ∀ steps : List (Step τ),
      Yields (∃ step ∈ steps, step.Hollow) (eventsEachLasting (sharedAmong budget counts) steps)
        (leavesEachUnder budget counts steps)
  | [] => .inr ⟨by simp, by rw [eventsEachLasting]; rfl⟩
  | step :: more => by
    rw [eventsEachLasting, leavesEachUnder]
    refine Yields.congr ?_ (List.exists_mem_cons_iff ..)
    exact (eventsLasting_yields budget counts step).append (eventsEachLasting_yields budget counts more)

end

theorem events_yields : ∀ step : Step τ, Yields step.Hollow step.events step.leaves
  | .ready e => .inr ⟨not_hollow_ready e, rfl⟩
  | .subdivided budget steps => eventsLasting_yields budget [] (.subdivided budget steps)

theorem assignDurations_yields (steps : List (Step τ)) :
    Yields (∃ step ∈ steps, step.Hollow) (assignDurations steps) (steps.flatMap leaves) := by
  induction steps with
  | nil => exact .inr ⟨by simp, rfl⟩
  | cons step more ih =>
    rw [List.flatMap_cons]
    exact ((events_yields step).append ih).congr (List.exists_mem_cons_iff ..)

/-! ### Exact shares -/

/-- How long leaves last one after the other. -/
def total (leaves : List (Leaf Rat)) : Rat := ((leaves.map Leaf.played).filterMap Event.duration).sum

theorem total_append (leaves others : List (Leaf Rat)) : total (leaves ++ others) = total leaves + total others := by
  simp only [total, List.map_append, List.filterMap_append, List.sum_append]

theorem total_singleton {e : Event Rat} (h : e.isPolyphony = false) (budget : Rat) (counts : List Nat) :
    total [⟨e, some (budget, counts)⟩] = sharedAmong budget counts := by
  have hlasts := Event.lastsFor_setDuration (sharedAmong budget counts) h
  simp [total, Leaf.played, hlasts.own]

theorem mul_share {children : Nat} (h : children ≠ 0) (d : Rat) : children * share d children = d := by
  have hchildren : (children : Rat) ≠ 0 := by exact_mod_cast h
  have hshare : share d children = d / children := congrArg (d / ·) (Int.cast_natCast children)
  rw [hshare, mul_div_cancel₀ d hchildren]

mutual

theorem total_leavesUnder (budget : Rat) (counts : List Nat) :
    ∀ step : Step Rat, ¬step.Hollow → (∀ leaf ∈ step.leavesUnder budget counts, leaf.event.isPolyphony = false) →
      total (step.leavesUnder budget counts) = sharedAmong budget counts
  | .ready e, _, hflat => total_singleton (hflat ⟨e, some (budget, counts)⟩ (List.mem_singleton_self _)) budget counts
  | .subdivided inner [], hfull, _ => absurd (.empty inner) hfull
  | .subdivided inner (step :: more), hfull, hflat => by
    -- so many children as there are shares of what the subdivision lasts
    rw [leavesUnder] at hflat ⊢
    rw [hollow_subdivided_iff] at hfull
    have hmore : ∀ other ∈ step :: more, ¬other.Hollow := fun other hmem hother => hfull ⟨other, hmem, hother⟩
    rw [total_leavesEachUnder budget _ (step :: more) hmore hflat, sharedAmong_append]
    exact mul_share (Nat.succ_ne_zero more.length) _

theorem total_leavesEachUnder (budget : Rat) (counts : List Nat) :
    ∀ steps : List (Step Rat), (∀ step ∈ steps, ¬step.Hollow) →
      (∀ leaf ∈ leavesEachUnder budget counts steps, leaf.event.isPolyphony = false) →
        total (leavesEachUnder budget counts steps) = steps.length * sharedAmong budget counts
  | [], _, _ => by simp [leavesEachUnder, total]
  | step :: more, hfull, hflat => by
    rw [leavesEachUnder, List.forall_mem_append] at hflat
    rw [List.forall_mem_cons] at hfull
    rw [leavesEachUnder, total_append, total_leavesUnder budget counts step hfull.1 hflat.1,
      total_leavesEachUnder budget counts more hfull.2 hflat.2, List.length_cons]
    push_cast
    ring

end

/-! ### Whole lists of steps -/

/-- **Subdivisions share their budget exactly.**  Sharing out fails exactly where
    a subdivision has no children; else every leaf is there, in its place, with
    its share for a duration and nothing else changed.  In rational numbers the
    shares of a budget add up to it, if none went to layers. -/
theorem subdivisions_share_out (steps : List (Step τ)) (budget : Rat) (parts : List (Step Rat)) :
    ((∃ failure, assignDurations steps = .error failure) ↔ ∃ step ∈ steps, step.Hollow) ∧
      (∀ events, assignDurations steps = .ok events → List.Forall₂ Leaf.Becomes (steps.flatMap leaves) events) ∧
        ∀ events, assignDurations [.subdivided budget parts] = .ok events →
          (∀ leaf ∈ (subdivided budget parts).leaves, leaf.event.isPolyphony = false) →
            (events.filterMap Event.duration).sum = budget := by
  refine ⟨?_, ?_, ?_⟩
  · rcases assignDurations_yields steps with ⟨hhollow, hfails⟩ | ⟨hfull, hsounds⟩
    · exact ⟨fun _ => hhollow, fun _ => ⟨_, hfails⟩⟩
    · rw [hsounds]
      simp [hfull]
  · intro events hevents
    obtain ⟨-, rfl⟩ := (assignDurations_yields steps).of_ok hevents
    rw [List.forall₂_map_right_iff, List.forall₂_same]
    exact fun leaf _ => leaf.becomes_played
  · intro events hevents hflat
    obtain ⟨hfull, rfl⟩ := (assignDurations_yields [subdivided budget parts]).of_ok hevents
    have hfull : ¬(subdivided budget parts).Hollow := fun h => hfull ⟨_, List.mem_singleton_self _, h⟩
    rw [List.flatMap_singleton]
    exact total_leavesUnder budget [] _ hfull hflat

/-- Two rests in the place of the second of two rests; their own budget does not count. -/
theorem rests_share_out :
    let rest : Step Rat := .ready (.rest { text := "r" })
    let parts := [rest, .subdivided 7 [rest, rest]]
    ∃ events, assignDurations [.subdivided 1 parts] = .ok events ∧
      List.Forall₂ Leaf.Becomes (subdivided 1 parts).leaves events ∧
      events.filterMap Event.duration = [1 / 2, 1 / 4, 1 / 4] ∧ (events.filterMap Event.duration).sum = 1 := by
  intro rest parts
  obtain ⟨-, hleaves, htotal⟩ := subdivisions_share_out [subdivided 1 parts] 1 parts
  have hflat : ∀ leaf ∈ (subdivided 1 parts).leaves, leaf.event.isPolyphony = false := by
    intro leaf hleaf
    simp only [leaves, leavesEachUnder, leavesUnder, parts, rest, List.mem_append, List.mem_singleton,
      List.not_mem_nil, or_false] at hleaf
    rcases hleaf with rfl | rfl | rfl <;> rfl
  refine ⟨_, rfl, hleaves _ rfl, ?_, htotal _ rfl hflat⟩
  decide +kernel

end Step

end NumberedMelody
