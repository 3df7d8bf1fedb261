/-
  NumberedMelody/Proofs/Evaluation/RepeatForms.lean
  =================================================
  **The two forms of repeats.**  `[: body :n]` plays its first draws over and
  over, and `(: body :n)` draws anew on every pass.  Where nothing is drawn, the
  tape of the first form stays empty, and every pass over it is a pass of the
  second form (`Idle.passes`).  The two forms then agree in everything, cycles
  and failures included (`repeat_forms_agree`).
-/
import NumberedMelody.Proofs.Evaluation.Quiet
import NumberedMelody.Proofs.Evaluation.ReplayedRepeat
import NumberedMelody.Proofs.Random.Draws

namespace NumberedMelody

open NumberedMelody.Random (Source Tape)

/-! ### Nodes that draw nothing -/

/-- Up to so many times, one pass after the other, the nodes are run in the
    context and the source stays as it was; every draw would move it on. -/
def DrawsNothing (times : Nat) (nodes : List Node) (context : Context) (source : Source) : Prop :=
  ∀ n ≤ times, (Realizer.passes realize id context n nodes source).source = source

variable {times : Nat} {nodes : List Node} {context : Context} {base s : Source}

theorem DrawsNothing.first (h : DrawsNothing (times + 1) nodes context base) :
    (Realizer.inOrder realize nodes context base).source = base := by
  have hone := h 1 (Nat.le_add_left 1 times)
  cases hresult : (Realizer.inOrder realize nodes context (id base)).result with
  | error failure =>
    rw [Realizer.passes_succ_of_error hresult] at hone
    exact hone
  | ok steps =>
    rw [Realizer.passes_succ_of_ok hresult] at hone
    exact hone

/-- The nodes draw nothing either once they have been run. -/
theorem DrawsNothing.next (h : DrawsNothing (times + 1) nodes context base) {steps : List Step}
    (hsteps : (Realizer.inOrder realize nodes context (id base)).result = .ok steps) :
    DrawsNothing times (Realizer.inOrder realize nodes context (id base)).tree context base := by
  intro n hn
  have hmore := h (n + 1) (Nat.succ_le_succ hn)
  rw [Realizer.passes_succ_of_ok hsteps, id, h.first] at hmore
  exact hmore

/-! ### An empty tape -/

/-- One tape over the source, with nothing on it. -/
def Idle (base s : Source) : Prop :=
  ∃ tape : Tape, tape.draws = [] ∧ tape.StandsFor base base 0 ∧ s = Source.onTape [] tape base

theorem Idle.record (base : Source) : Idle base base.record := ⟨Tape.blank, rfl, .blank base, rfl⟩

theorem Idle.rewind (h : Idle base s) : Idle base s.rewind := by
  obtain ⟨tape, hempty, hstands, rfl⟩ := h
  exact ⟨tape.rewound, hempty, hstands.rewound, rfl⟩

theorem Idle.finish (h : Idle base s) : s.finish = base := by
  obtain ⟨tape, -, -, rfl⟩ := h
  rfl

theorem Random.Source.eq_zero_of_skip_eq_self {n : Nat} (h : base.skip n = base) : n = 0 := by
  have hle := base.add_taken_le_taken_skip n
  rw [h] at hle
  omega

/-- A pass that draws nothing is the same over an empty tape, which stays empty. -/
theorem Idle.inOrder (h : Idle base s) (hdraws : (Realizer.inOrder realize nodes context base).source = base) :
    (Realizer.inOrder realize nodes context s).Matches (fun s t => Idle base s ∧ t = base)
      (Realizer.inOrder realize nodes context base) := by
  obtain ⟨tape, hempty, hstands, rfl⟩ := h
  obtain ⟨tape', below', given, hrun, hbase, hstands', hkept⟩ := taped_inOrder nodes context hstands
  obtain rfl : given = 0 := Source.eq_zero_of_skip_eq_self (hbase.symm.trans hdraws)
  have hempty' : tape'.draws = [] := by
    rw [hempty] at hkept
    exact List.eq_nil_of_length_eq_zero hkept
  have hbelow : below' = base := by
    rw [hstands'.below_eq, hempty']
    rfl
  subst hbelow
  exact ⟨hrun.tree, hrun.context, ⟨⟨tape', hempty', hstands', hrun.source⟩, hdraws⟩, hrun.result⟩

/-- **Passes over an empty tape are passes over the source itself**, whatever is
    done to the tape in between. -/
theorem Idle.passes {prepare : Source → Source} (hprepare : ∀ {s}, Idle base s → Idle base (prepare s)) (n : Nat) :
    ∀ {nodes : List Node} {s : Source}, DrawsNothing n nodes context base → Idle base s →
      (Realizer.passes realize prepare context n nodes s).Matches (fun s t => Idle base s ∧ t = base)
        (Realizer.passes realize id context n nodes base) := by
  induction n with
  | zero =>
    intro nodes s _ hs
    exact ⟨rfl, rfl, ⟨hs, rfl⟩, rfl⟩
  | succ n ih =>
    intro nodes s hnodes hs
    have hpass := Idle.inOrder (hprepare hs) hnodes.first
    cases hresult : (Realizer.inOrder realize nodes context (id base)).result with
    | error failure =>
      rw [Realizer.passes_succ_of_error (hpass.result.trans hresult), Realizer.passes_succ_of_error hresult]
      exact hpass.back context
    | ok steps =>
      have hmore := ih (hnodes.next hresult) hpass.source.1
      rw [Realizer.passes_succ_of_ok (hpass.result.trans hresult), Realizer.passes_succ_of_ok hresult, hpass.tree,
        id, hnodes.first]
      exact hmore.withResult _

/-- The passes of a repeat that records: the first one on an empty tape, the
    others on what is rewound of it. -/
theorem Idle.repeated (hnodes : DrawsNothing times nodes context base) :
    (Realizer.repeated realize Source.rewind times nodes context base.record).Matches
      (fun s t => Idle base s ∧ t = base) (Realizer.repeated realize id times nodes context base) := by
  cases times with
  | zero => exact ⟨rfl, rfl, ⟨.record base, rfl⟩, rfl⟩
  | succ n =>
    have hpass := Idle.inOrder (.record base) hnodes.first
    cases hresult : (Realizer.inOrder realize nodes context base).result with
    | error failure =>
      rw [Realizer.repeated_succ_of_error (hpass.result.trans hresult), Realizer.repeated_succ_of_error hresult]
      exact hpass.back context
    | ok steps =>
      have hmore := Idle.passes Idle.rewind n (hnodes.next hresult) hpass.source.1
      rw [Realizer.repeated_succ_of_ok (hpass.result.trans hresult), Realizer.repeated_succ_of_ok hresult,
        hpass.tree, hnodes.first]
      exact hmore.withResult _

/-! ### The two forms -/

variable {values : List Node} {count : Node} {source : Source}

theorem realize_repetition (text : String) (replayed : Bool) (values : List Node) (count : Node) (context : Context)
    (source : Source) :
    realize (.repetition text replayed values count) context source =
      Realizer.repetition realize text replayed values count context source := by
  rw [realize_eq_level]
  rfl

theorem context_number (r : Realizer) (count : Node) (context : Context) (source : Source) :
    (Realizer.number r count context source).context = context := by
  cases count <;> rfl

/-- Two runs of the same nodes as the two forms of a repeat. -/
structure SameRepeat (text text' : String) (replayed plain : Run Node (List Step)) : Prop where
  result : replayed.result = plain.result
  context : replayed.context = plain.context
  source : replayed.source = plain.source
  tree : ∃ values count, replayed.tree = .repetition text true values count ∧
    plain.tree = .repetition text' false values count

theorem sameRepeat_of_drawsNothing (text text' : String)
    (h : ∀ times : Int, (Realizer.number realize count context source).result = .ok times →
      DrawsNothing times.toNat values context (Realizer.number realize count context source).source) :
    SameRepeat text text' (realize (.repetition text true values count) context source)
      (realize (.repetition text' false values count) context source) := by
  have hback := context_number realize count context source
  simp only [realize_repetition, Realizer.repetition, Run.andThen]
  cases hcounted : (Realizer.number realize count context source).result with
  | error failure => exact ⟨rfl, rfl, rfl, _, _, rfl, rfl⟩
  | ok times =>
    by_cases htimes : times ≤ 0
    · simp only [if_pos htimes]
      exact ⟨rfl, rfl, rfl, _, _, rfl, rfl⟩
    · have hrun := Idle.repeated (h times hcounted)
      simp only [if_neg htimes, if_true, Bool.false_eq_true, if_false, hback]
      refine ⟨hrun.result, hrun.context, ?_, _, _, rfl, ?_⟩
      · exact hrun.source.1.finish.trans hrun.source.2.symm
      · simp only [Run.withTree, hrun.tree]

/-- **The two forms of repeats agree where nothing is drawn.**  A body draws
    nothing in a context if no node is random in it and in the values of the
    variables that it uses, those that these values use included; cycles may
    stand anywhere.  Where the body draws nothing, as often as a count of any
    kind says, the two forms yield the same or fail alike, and leave the same
    context, the same source, and the same body and count with all their visits. -/
theorem repeat_forms_agree (values : List Node) (context : Context) :
    (∀ names : String → Prop, (∀ value ∈ values, value.Quiet names) → context.Quiet names →
        ∀ times source, DrawsNothing times values context source) ∧
      ∀ (text text' : String) (count : Node) (source : Source),
        (∀ times : Int, (Realizer.number realize count context source).result = .ok times →
          DrawsNothing times.toNat values context (Realizer.number realize count context source).source) →
        SameRepeat text text' (realize (.repetition text true values count) context source)
          (realize (.repetition text' false values count) context source) := by
  constructor
  · intro names hvalues hcontext times source n _
    exact source_passes_of_quiet hvalues hcontext source n
  · intro text text' count source h
    exact sameRepeat_of_drawsNothing text text' h

/-- The node is not random, and uses the name `A` at most. -/
def usesQuietA (node : Node) : Bool := !node.isRandom && node.used.all (· == "A")

theorem quiet_of_usesQuietA {node : Node} (depth : Nat) (h : Node.checkTo usesQuietA depth node = true) :
    node.Quiet (· = "A") := by
  refine (Node.everywhere_of_checkTo depth h).imp ?_
  intro node hnode
  simpa [usesQuietA] using hnode

/-- A cycle and a variable with a cycle, as often as a random integer says, with
    a random variable that is not used. -/
theorem cyclic_repeat_forms_agree :
    let body := [Node.cycle "<0 1>" [.integer "0" 0, .integer "1" 1] 0, .variable "A" "A"]
    let list := Node.sequence "(2 <3 4>)" {} true [.integer "2" 2, .cycle "<3 4>" [.integer "3" 3, .integer "4" 4] 0]
    let context := ((Context.ofOptions {}).assign "A" list).assign "B" (.randomPitch "?" {})
    let count := Node.randomInteger "(1,4)" {} 1 4
    (∀ value ∈ body, value.Quiet (· = "A")) ∧ context.Quiet (· = "A") ∧
      (∀ times source, DrawsNothing times body context source) ∧
      SameRepeat "[: <0 1> A :(1,4)]" "(: <0 1> A :(1,4))"
        (realize (.repetition "[: <0 1> A :(1,4)]" true body count) context (.ofSeed 9))
        (realize (.repetition "(: <0 1> A :(1,4))" false body count) context (.ofSeed 9)) := by
  intro body list context count
  have hbody : ∀ value ∈ body, value.Quiet (· = "A") := by
    have hcheck : body.all (Node.checkTo usesQuietA 2) = true := by decide
    intro value hvalue
    exact quiet_of_usesQuietA 2 (List.all_eq_true.mp hcheck value hvalue)
  have hcontext : context.Quiet (· = "A") := by
    rintro name rfl value hvalue
    obtain rfl : list = value := Option.some.inj hvalue
    exact quiet_of_usesQuietA 3 (by decide)
  have hforms := repeat_forms_agree body context
  have hdraws := hforms.1 _ hbody hcontext
  exact ⟨hbody, hcontext, hdraws, hforms.2 _ _ count (.ofSeed 9) fun times _ => hdraws times.toNat _⟩

end NumberedMelody
