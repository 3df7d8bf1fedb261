/-
  NumberedMelody/Proofs/Melody/SortedChords.lean
  ==============================================
  **Chords come out sorted.**  Every rule that makes a chord or changes the
  notes of one sorts its tones again: resolution after the inversions, the
  arithmetic of lists and expressions by resolving what they derive, and both
  arpeggios after they have picked.  A new duration leaves the notes alone.
  Sorted tones are therefore maintained by evaluation, whatever the options are
  (`sorting_kept`), of chords in layers as well, and of the events of a melody
  after any history of requests (`chords_sorted`).
-/
import NumberedMelody.Proofs.Evaluation.EagerVariables
import NumberedMelody.Proofs.Evaluation.Layers
import NumberedMelody.Proofs.Melody.History

namespace NumberedMelody

open NumberedMelody.Random (Source)
open Node (unplayedAll)

/-! ### Sorted chords -/

/-- The tones of a chord do not descend; one without a note lies below every note. -/
def Event.Sorted : Event → Prop
  | .chord c => c.tones.Pairwise NotAbove
  | _ => True

theorem Chord.sorted_resolve (c : Chord) (o : Options) : (Event.chord (c.resolve o)).Sorted := pairwise_sortTones _

theorem Event.sorted_against (e : Event) (o : Options) : (e.against o).Sorted := by
  cases e with
  | chord c => exact c.sorted_resolve o
  | _ => trivial

theorem Event.Sorted.setDuration {e : Event} (h : e.Sorted) (d : Float) : (e.setDuration d).Sorted := by
  cases e with
  | chord c => exact List.pairwise_map.mpr h
  | polyphony text layers =>
    obtain ⟨stretched, heq⟩ := Event.setDuration_polyphony text layers d
    rw [heq]
    trivial
  | _ => trivial

/-- Chords are sorted; nothing is asked of nodes, options and sources. -/
def sorting : Invariant where
  event := Event.Sorted

theorem sorting_kept : sorting.Kept where
  toKeptByNodes := ⟨fun _ _ => trivial, fun _ _ => trivial, fun _ => trivial, fun _ _ => trivial⟩
  toKeptByOptions := .of_all fun _ => trivial
  toKeptBySources := .of_all fun _ _ => trivial
  toKeptByEvents := {
    against := fun {e o} _ _ => e.sorted_against o
    numeral := by
      intro k options c _ hc
      obtain ⟨key, scale, degree, shift, -, rfl⟩ := RomanNumeral.chordFor_eq_ok hc
      exact Chord.sorted_resolve _ _
    generated := fun _ _ _ _ => trivial
    silence := fun _ _ => trivial
    sample := fun _ _ _ => trivial
    function := fun _ _ _ => trivial
    together := fun _ _ => trivial
    setDuration := fun he => he.setDuration _
    combined := by
      intro o op l r e _ _ _ _ _ _ h
      rcases ListArithmetic.combinePair_cases h with ⟨p, -, rfl⟩ | ⟨tones, -, -, rfl⟩
      · trivial
      · exact Chord.sorted_resolve _ o
    mapped := by
      intro o expr e e' _ he h
      rcases ListArithmetic.mapEvent_cases h with ⟨p, -, rfl⟩ | ⟨tones, -, -, -, rfl⟩ | rfl
      · trivial
      · exact Chord.sorted_resolve _ o
      · exact he
    vertical := by
      intro l i e _ _ _ hi h
      rcases ListArithmetic.pickVertical_cases h with ⟨index, tone, -, -, rfl⟩ | ⟨c, -, rfl⟩ | rfl
      · trivial
      · exact pairwise_sortTones _
      · exact hi
    horizontal := by
      intro pool i e _ hpool hi h
      rcases ListArithmetic.pickHorizontal_cases h with hmem | ⟨c, -, rfl⟩ | rfl
      · exact hpool e hmem
      · exact pairwise_sortTones _
      · exact hi }

/-! ### Whole patterns -/

namespace Melody

/-- **Emitted chords are always sorted.**  Whatever the options and the random
    stream are, and however often the tree was visited before, every chord that
    a pattern yields is sorted, in layers as well, at any depth; and so is every
    chord among the events of its melody after any history of requests. -/
theorem chords_sorted {text : String} {nodes : List Node} (hread : readPattern text = .ok nodes) :
    (∀ tree options source events, unplayedAll tree = unplayedAll nodes →
      (evaluate tree (.ofOptions options) source).result = .ok events →
        ∀ e ∈ events, e.Throughout Event.Sorted) ∧
      ∀ source history, ∀ e ∈ ((ofNodes text nodes).worn source history).events, e.Throughout Event.Sorted := by
  have hnodes := deep_admits_of_readPattern (I := sorting) hread
    fun node _ => Node.everywhere_of_all (fun _ => trivial) node
  constructor
  · intro tree options source events hshape hevents
    exact evaluate_throughout sorting_kept hnodes hshape trivial trivial hevents
  · intro source history
    exact worn_events sorting_kept.deep (fun _ => trivial) hnodes trivial source fun _ _ _ _ => trivial

/-- An inverted chord and a numeral behind an arpeggio, laid together with a subdivision. -/
theorem layered_chords_sorted :
    ∃ nodes events e layer c, readPattern "A~(024%2 iv)@(01) B=[135 (0 2)#(01)] AB" = .ok nodes ∧
      (evaluate nodes (.ofOptions {}) (.ofSeed 0)).result = .ok events ∧ e ∈ events ∧ layer ∈ e.layers ∧
      .chord c ∈ layer ∧ c.tones.Pairwise NotAbove := by
  have hcheck : (readPattern "A~(024%2 iv)@(01) B=[135 (0 2)#(01)] AB").toOption.any (fun nodes =>
      (evaluate nodes (.ofOptions {}) (.ofSeed 0)).result.toOption.any fun events =>
        events.any fun e => e.layers.any fun layer => layer.any fun other =>
          match other with
          | .chord _ => true
          | _ => false) = true := by decide +kernel
  obtain ⟨nodes, hread, hevents⟩ := eq_ok_of_any hcheck
  obtain ⟨events, hevents, hany⟩ := eq_ok_of_any hevents
  obtain ⟨e, he, hany⟩ := List.any_eq_true.mp hany
  obtain ⟨layer, hlayer, hany⟩ := List.any_eq_true.mp hany
  obtain ⟨other, hother, hchord⟩ := List.any_eq_true.mp hany
  have hsorted := (chords_sorted hread).1 nodes {} (.ofSeed 0) events rfl hevents e he
  cases other with
  | chord c => exact ⟨nodes, events, e, layer, c, hread, hevents, he, hlayer, hother,
      (hsorted.inside layer hlayer _ hother).here⟩
  | _ => cases hchord

end Melody

end NumberedMelody
