/-
  NumberedMelody/Proofs/Evaluation/ReplayedRepeat.lean
  ====================================================
  **A replayed repeat plays one pass over and over.**  The first pass of
  `[: body :n]` draws through a recording tape, the others through the same
  tape rewound.  Each of them is in step with one run of the body over the
  source itself (`shadow_coupled`), so that all of them yield the same, and
  what is left at last is what that one run leaves
  (`realize_replayed_repetition`).

  The body holds no cycles, so that a pass leaves nothing in it but chords that
  its numerals keep; it may hold anything else, repeats and variables included.
-/
import NumberedMelody.Proofs.Evaluation.Brackets
import NumberedMelody.Proofs.Evaluation.PlayedTrees

namespace NumberedMelody

open NumberedMelody.Random (Source Tape allRunOut)
open Node (unplayedAll)

/-! ### The tape and the source that it stands for -/

/-- The sources `s` and `t` hold the same `n` tapes, `s` over a tape that stands
    for `base`, and `t` over `base` itself after as many draws as the tape has
    handed out.  The tape kept `kept` draws already when it was last rewound. -/
def Shadow (base : Source) (kept n : Nat) (s t : Source) : Prop :=
  ∃ (inner : List Tape) (tape : Tape) (below : Source) (given : Nat),
    inner.length = n ∧ s = Source.onTape inner tape below ∧ t = (base.skip given).within inner ∧
      tape.StandsFor base below given ∧ tape.draws.length = max kept given

variable {base : Source} {kept : Nat}

theorem Shadow.draw {n : Nat} {s t : Source} (h : Shadow base kept n s t) :
    s.draw.1 = t.draw.1 ∧ Shadow base kept n s.draw.2 t.draw.2 := by
  obtain ⟨inner, tape, below, given, rfl, rfl, rfl, hstands, hkept⟩ := h
  cases hopen : allRunOut inner with
  | false =>
    -- one of the common tapes plays
    obtain ⟨draw, inner', hlength, hdraw⟩ := Source.draw_within_of_blocked hopen
    simp only [Source.onTape, hdraw]
    exact ⟨trivial, inner', tape, below, given, hlength, rfl, rfl, hstands, hkept⟩
  | true =>
    -- the draw comes from the tape here, and from `base` there
    obtain ⟨tape', below', hdraw, hstands', hkept'⟩ := hstands.draw
    have hbase := base.draw_skip given
    simp only [Source.onTape, Source.draw_within_of_open hopen, hdraw, hbase]
    refine ⟨trivial, inner.map (·.keep (base.nth given)), tape', below', given + 1, ?_, rfl, rfl, hstands', ?_⟩
    · exact List.length_map _
    · omega

/-- The tape and the source that it stands for cannot be told apart. -/
theorem shadow_coupled (base : Source) (kept : Nat) : Realizer.Coupled (Shadow base kept) where
  draw := Shadow.draw
  record := by
    rintro n s t ⟨inner, tape, below, given, hn, rfl, rfl, hstands, hkept⟩
    exact ⟨Tape.blank :: inner, tape, below, given, congrArg (· + 1) hn, rfl, rfl, hstands, hkept⟩
  rewind := by
    rintro n s t ⟨inner, tape, below, given, hn, rfl, rfl, hstands, hkept⟩
    cases inner with
    | nil => simp at hn
    | cons top inner => exact ⟨top.rewound :: inner, tape, below, given, hn, rfl, rfl, hstands, hkept⟩
  finish := by
    rintro n s t ⟨inner, tape, below, given, hn, rfl, rfl, hstands, hkept⟩
    cases inner with
    | nil => simp at hn
    | cons top inner => exact ⟨inner, tape, below, given, Nat.succ.inj hn, rfl, rfl, hstands, hkept⟩

/-! ### Passes over a tape -/

variable {body : List Node}

/-- A pass over a tape that has handed out nothing is a pass over the source
    that the tape stands for. -/
theorem taped_inOrder {tape : Tape} {below : Source} (body : List Node) (context : Context)
    (h : tape.StandsFor base below 0) :
    ∃ (tape' : Tape) (below' : Source) (given : Nat),
      (Realizer.inOrder realize body context (Source.onTape [] tape below)).Matches
        (fun s _ => s = Source.onTape [] tape' below') (Realizer.inOrder realize body context base) ∧
      (Realizer.inOrder realize body context base).source = base.skip given ∧
      tape'.StandsFor base below' given ∧ tape'.draws.length = max tape.draws.length given := by
  have hshadow : Shadow base tape.draws.length 0 (Source.onTape [] tape below) base :=
    ⟨[], tape, below, 0, rfl, rfl, rfl, h, (Nat.max_zero _).symm⟩
  have hstep := Realizer.nested_inStep (shadow_coupled base tape.draws.length) nestingLimit
  have hrun := hstep.inOrder body context _ _ (fun _ _ => trivial) hshadow
  obtain ⟨inner, tape', below', given, hinner, hsource, hbase, hstands, hkept⟩ := hrun.source
  have hnil : inner = [] := List.eq_nil_of_length_eq_zero hinner
  subst hnil
  exact ⟨tape', below', given, ⟨hrun.tree, hrun.context, hsource, hrun.result⟩, hbase, hstands, hkept⟩

/-! ### Passes over a body without cycles -/

/-- So many passes, over a body that may have been played before: what they yield
    is what one pass over the source itself yields, over and over, and what they
    leave is a tape that keeps what the one pass takes. -/
structure Retraces (base : Source) (body : List Node) (context : Context) (times : Nat)
    (run : Run (List Node) (List Step)) : Prop where
  tree : unplayedAll run.tree = unplayedAll body
  source : ∃ (tape : Tape) (below : Source) (given : Nat), run.source = Source.onTape [] tape below ∧
    tape.StandsFor base below given ∧
    base.skip tape.draws.length = (Realizer.inOrder realize body context base).source
  result : SameResult (fun steps played => List.Forall₂ (Step.Rel Event.Same) (List.replicate times steps).flatten played)
    (Realizer.inOrder realize body context base).result run.result

variable {context : Context}

/-- Passes after passes. -/
theorem Retraces.onward {times more : Nat} {run : Run (List Node) (List Step)} (h : Retraces base body context times run)
    (next : Run (List Node) (List Step) → Run (List Node) (List Step))
    (hnext : (∃ steps, (Realizer.inOrder realize body context base).result = .ok steps) →
      Retraces base body context more (next run)) :
    Retraces base body context (times + more)
      (run.onward fun pass steps => (next pass).withResult fun others => .ok (steps ++ others)) := by
  have hresult := h.result
  unfold Run.onward
  generalize honce : (Realizer.inOrder realize body context base).result = once at hresult
  cases hrun : run.result with
  | error failure =>
    rw [hrun] at hresult
    cases hresult
    refine ⟨h.tree, h.source, ?_⟩
    rw [hrun, honce]
    exact .error failure
  | ok played =>
    rw [hrun] at hresult
    cases hresult with
    | @ok steps _ hplayed =>
      have hmore := hnext ⟨steps, honce⟩
      have hothers := hmore.result
      refine ⟨hmore.tree, hmore.source, ?_⟩
      rw [honce] at hothers ⊢
      simp only [Run.withResult]
      generalize (next run).result = others at hothers
      cases hothers with
      | ok hothers =>
        refine .ok ?_
        rw [List.replicate_add, List.flatten_append]
        exact List.rel_append hplayed hothers

/-- One pass in a copy of the context, over a tape that has handed out nothing,
    and that keeps nothing yet or what one pass takes. -/
theorem taped_pass (hbody : ∀ node ∈ body, node.Acyclic) {nodes : List Node}
    (hplayed : unplayedAll nodes = unplayedAll body) {tape : Tape} {below : Source} (h : tape.StandsFor base below 0)
    (hkeeps : tape.draws.length = 0 ∨ base.skip tape.draws.length = (Realizer.inOrder realize body context base).source) :
    Retraces base body context 1
      ((Realizer.inOrder realize nodes context (Source.onTape [] tape below)).back context) := by
  obtain ⟨tape', below', given, hrun, hbase, hstands, hkept⟩ := taped_inOrder nodes context h
  obtain ⟨hsource, hresult⟩ := inOrder_played hbody hplayed context base
  refine ⟨(realize_keepsShape.inOrder nodes context _).trans hplayed, ⟨tape', below', given, hrun.source, hstands, ?_⟩, ?_⟩
  · -- what the tape keeps is what this pass took, or what was kept before
    rw [hkept]
    rcases Nat.le_total tape.draws.length given with hle | hle
    · rw [Nat.max_eq_right hle, hsource, hbase]
    · rw [Nat.max_eq_left hle]
      rcases hkeeps with hnone | hkeeps
      · obtain rfl : given = 0 := by omega
        rw [hnone, hsource, hbase]
      · exact hkeeps
  · rw [← hrun.result] at hresult
    refine hresult.mono fun steps played hsame => ?_
    rw [List.replicate_one, List.flatten_singleton]
    exact hsame

/-- Further passes over the tape retrace the first one. -/
theorem rewound_passes (hbody : ∀ node ∈ body, node.Acyclic)
    (hyields : ∃ steps, (Realizer.inOrder realize body context base).result = .ok steps) (n : Nat) :
    ∀ {run : Run (List Node) (List Step)} {times : Nat}, Retraces base body context times run →
      Retraces base body context n (Realizer.passes realize Source.rewind context n run.tree run.source) := by
  induction n with
  | zero =>
    intro run times h
    obtain ⟨steps, hsteps⟩ := hyields
    refine ⟨h.tree, h.source, ?_⟩
    rw [hsteps]
    exact .ok .nil
  | succ n ih =>
    intro run times h
    obtain ⟨tape, below, given, hsource, hstands, hleft⟩ := h.source
    have hrewind : run.source.rewind = Source.onTape [] tape.rewound below := by
      rw [hsource]
      rfl
    rw [Realizer.passes_succ, hrewind, Nat.add_comm]
    have hpass := taped_pass hbody h.tree hstands.rewound (.inr hleft)
    exact hpass.onward (fun pass => Realizer.passes realize Source.rewind context n pass.tree pass.source)
      fun _ => ih hpass

/-- The passes of a replayed repeat, with the tape that they share. -/
theorem repeated_taped (hbody : ∀ node ∈ body, node.Acyclic) (n : Nat) :
    Retraces base body context (n + 1) (Realizer.repeated realize Source.rewind (n + 1) body context base.record) := by
  have hpass : Retraces base body context 1 _ := taped_pass hbody rfl (Tape.StandsFor.blank base) (.inl rfl)
  have hfirst : Retraces base body context (1 + 0) (Realizer.passes realize id context 1 body base.record) := by
    rw [Realizer.passes_succ]
    exact hpass.onward (fun pass => Realizer.passes realize id context 0 pass.tree pass.source)
      fun hyields => rewound_passes hbody hyields 0 hpass
  rw [Realizer.repeated_succ, Nat.add_comm]
  exact hfirst.onward (fun pass => Realizer.passes realize Source.rewind context n pass.tree pass.source)
    fun hyields => rewound_passes hbody hyields n hfirst

/-- **A replayed repeat plays one pass over and over.**  It yields the steps of
    one run of its body in the same context over the same source, as many times
    as it says, and fails as that run fails; the source that it leaves is the
    source that the one run leaves, and the context is left alone.  Chords that
    numerals of the body keep from pass to pass make no difference but in signs
    of zeros, which are not compared. -/
theorem realize_replayed_repetition {text count : String} {values : List Node} {times : Int}
    (hbody : ∀ node ∈ values, node.Acyclic) (htimes : 1 ≤ times) (context : Context) (source : Source) :
    let run := realize (.repetition text true values (.integer count times)) context source
    let once := Realizer.inOrder realize values context source
    run.context = context ∧ run.source = once.source ∧
      SameResult (fun steps played =>
        List.Forall₂ (Step.Rel Event.Same) (List.replicate times.toNat steps).flatten played) once.result run.result := by
  intro run once
  obtain ⟨n, hn⟩ : ∃ n, times.toNat = n + 1 := ⟨times.toNat - 1, by omega⟩
  have hpositive : ¬ times ≤ 0 := by omega
  have hrepeated : Retraces source values context (n + 1) _ := repeated_taped hbody n
  obtain ⟨tape, below, given, htaped, hstands, hleft⟩ := hrepeated.source
  have hrun : run = _ := realize_eq_level _ _ _
  simp only [Realizer.level, Realizer.repetition, Realizer.number, Run.andThen, if_neg hpositive, if_true, hn] at hrun
  refine ⟨?_, ?_, ?_⟩
  · rw [hrun]
    exact Realizer.repeated_context ..
  · rw [hrun]
    show (Realizer.repeated realize Source.rewind (n + 1) values context source.record).source.finish = _
    rw [htaped, ← hleft, ← hstands.below_eq]
    rfl
  · rw [hrun, hn]
    exact hrepeated.result

/-- A numeral, a random pitch and another two, three times over: `[: iv ? (: ? :2) :3]`. -/
theorem realize_replayed_numeral_and_draws :
    let pitch := Node.randomPitch "?" {}
    let body := [.numeral { numeral := { text := "iv", symbols := "iv" } }, pitch,
      .repetition "(: ? :2)" false [pitch] (.integer "2" 2)]
    let run := realize (.repetition "[: iv ? (: ? :2) :3]" true body (.integer "3" 3)) (.ofOptions {}) (.ofSeed 9)
    let once := Realizer.inOrder realize body (.ofOptions {}) (.ofSeed 9)
    (∀ node ∈ body, node.Acyclic) ∧ (1 : Int) ≤ 3 ∧ run.source = once.source ∧
      ∃ steps played, once.result = .ok steps ∧ steps.length = 4 ∧ run.result = .ok played ∧
        List.Forall₂ (Step.Rel Event.Same) (List.replicate 3 steps).flatten played := by
  intro pitch body run once
  have hbody : ∀ node ∈ body, node.Acyclic := by
    have hall : body.all (Node.checkTo (!·.isCycle) 3) = true := by decide +kernel
    intro node hnode
    refine (Node.everywhere_of_checkTo 3 (List.all_eq_true.mp hall node hnode)).imp ?_
    intro inside hinside
    simpa using hinside
  have hcheck : once.result.toOption.any (·.length = 4) = true := by decide +kernel
  obtain ⟨steps, hsteps, hlength⟩ := eq_ok_of_any hcheck
  obtain ⟨-, hsource, hresult⟩ := @realize_replayed_repetition "[: iv ? (: ? :2) :3]" "3" body 3 hbody (by decide)
    (.ofOptions {}) (.ofSeed 9)
  obtain ⟨played, hplayed, hsame⟩ := hresult.exists_of_ok hsteps
  exact ⟨hbody, by decide, hsource, steps, played, hsteps, of_decide_eq_true hlength, hplayed, hsame⟩

end NumberedMelody
