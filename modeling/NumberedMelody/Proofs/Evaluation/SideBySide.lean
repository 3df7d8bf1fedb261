/-
  NumberedMelody/Proofs/Evaluation/SideBySide.lean
  ================================================
  **Evaluations side by side.**  Two trees that are alike, in contexts that
  agree on the names that they use, are evaluated alike with the same source:
  steps with events that are taken for one another are yielded or both fail, the
  same source is left, and trees and contexts that are alike again
  (`evaluate_tracks`).  How many bar lines were passed and which other variables
  are stored makes no difference.

  A run that nests too deep may be excused, so that realizers can be compared
  of which one does not know the runs of all nodes.
-/
import NumberedMelody.Proofs.Evaluation.Lockstep
import NumberedMelody.Proofs.Tree.Likeness

namespace NumberedMelody

open NumberedMelody.Random (Source)

/-! ### Contexts that are alike -/

theorem lookup_cons_eq {α : Type} (name key : String) (a : α) (entries : Named α) :
    List.lookup name ((key, a) :: entries) = if name = key then some a else entries.lookup name := by
  by_cases hkey : name = key
  · subst hkey
    rw [List.lookup_cons_self, if_pos rfl]
  · have hbeq : (name == key) = false := beq_eq_false_iff_ne.mpr hkey
    rw [List.lookup_cons, hbeq, if_neg hkey]

/-- What is stored last is what is found. -/
theorem lookup_insert {α : Type} (name other : String) (a : α) (entries : Named α) :
    (entries.insert name a).lookup other = if other = name then some a else entries.lookup other := by
  induction entries with
  | nil => exact lookup_cons_eq other name a []
  | cons entry rest ih =>
    obtain ⟨key, b⟩ := entry
    unfold Named.insert
    by_cases hkey : name = key
    · subst hkey
      rw [if_pos rfl, lookup_cons_eq, lookup_cons_eq]
      by_cases hother : other = name <;> simp only [hother, if_true, if_false]
    · by_cases hlt : name < key
      · rw [if_neg hkey, if_pos hlt, lookup_cons_eq]
      · rw [if_neg hkey, if_neg hlt, lookup_cons_eq, lookup_cons_eq, ih]
        by_cases hother : other = key
        · subst hother
          rw [if_pos rfl, if_neg (Ne.symm hkey), if_pos rfl]
        · rw [if_neg hother, if_neg hother]

/-- A value found after an assignment is the one assigned, or it was there before. -/
theorem Context.lookup_assign {context : Context} {name other : String} {value stored : Node}
    (h : (context.assign name value).stored.lookup other = some stored) :
    (other = name ∧ stored = value) ∨ context.stored.lookup other = some stored := by
  rw [Context.assign, lookup_insert] at h
  by_cases hother : other = name
  · rw [if_pos hother] at h
    exact .inl ⟨hother, (Option.some.inj h).symm⟩
  · rw [if_neg hother] at h
    exact .inr h

/-- The same options, and values that are alike for the names that are used. -/
structure Context.Alike (L : Likeness) (context context' : Context) : Prop where
  options : context.options = context'.options
  start : context.start = context'.start
  stored : ∀ name, L.used name →
    Option.Rel (Node.Alike L true) (context.stored.lookup name) (context'.stored.lookup name)
  writtenOut : ∀ {name value}, L.writtenOut name value →
    ∃ stored, context.stored.lookup name = some stored ∧ stored.Alike L false value

namespace Context.Alike

variable {L : Likeness} {context context' : Context}

theorem inside (h : context.Alike L context') (overrides : Overrides) :
    (context.inside overrides).Alike L (context'.inside overrides) := by
  unfold Context.inside
  by_cases hempty : overrides.isEmpty
  · simp only [if_pos hempty]
    exact h
  · simp only [if_neg hempty]
    exact ⟨by rw [h.options], h.start, h.stored, h.writtenOut⟩

theorem after (h : context.Alike L context') (change : Change) :
    (context.after change).Alike L (context'.after change) :=
  ⟨by simp only [Context.after, h.options], h.start, h.stored, h.writtenOut⟩

theorem nextMeasure (h : context.Alike L context') : context.nextMeasure.Alike L context'.nextMeasure :=
  ⟨h.start, h.start, h.stored, h.writtenOut⟩

theorem assign (h : context.Alike L context') (hL : L.Lawful) {name : String} {value value' : Node}
    (hname : L.assigned name) (hvalue : value.Alike L true value') :
    (context.assign name value).Alike L (context'.assign name value') where
  options := h.options
  start := h.start
  stored := by
    intro other hother
    simp only [Context.assign, lookup_insert]
    by_cases heq : other = name
    · simp only [if_pos heq]
      exact .some hvalue
    · simp only [if_neg heq]
      exact h.stored other hother
  writtenOut := by
    intro other node hother
    simp only [Context.assign, lookup_insert]
    have hne : other ≠ name := by
      rintro rfl
      exact hL.unassigned hother hname
    rw [if_neg hne]
    exact h.writtenOut hother

end Context.Alike

/-! ### Results that are alike -/

/-- Both fail, or both yield values that are related.  If nothing is written out,
    they fail in the same way; in any case, one nests too deep if the other does. -/
inductive Likeness.Yields (L : Likeness) {α β : Type} (R : α → β → Prop) : Except Failure α → Except Failure β → Prop
  | ok {a : α} {b : β} (h : R a b) : Yields L R (.ok a) (.ok b)
  | error {failure failure' : Failure} (hsame : L.Literal → failure = failure')
    (hdeep : failure = .nestedTooDeep ↔ failure' = .nestedTooDeep) : Yields L R (.error failure) (.error failure')

/-- Steps with events that are taken for one another. -/
abbrev Likeness.Steps (L : Likeness) : List Step → List Step → Prop := List.Forall₂ (Step.Rel L.event)

/-- Events that are taken for one another, one by one. -/
abbrev Likeness.Events (L : Likeness) : List Event → List Event → Prop := List.Forall₂ L.event

namespace Likeness.Yields

variable {L : Likeness} {α α' β β' : Type} {R : α → α' → Prop} {S : β → β' → Prop} {x : Except Failure α}
  {y : Except Failure α'}

theorem fails (failure : Failure) : L.Yields R (.error failure) (.error failure) := .error (fun _ => rfl) Iff.rfl

theorem of_same (h : SameResult R x y) : L.Yields R x y := by
  cases h with
  | ok h => exact .ok h
  | error failure => exact fails failure

/-- Without anything written out, the results are the same but for what is taken
    for one another. -/
theorem same (h : L.Yields R x y) (hL : L.Literal) : SameResult R x y := by
  cases h with
  | ok h => exact .ok h
  | error hsame =>
    rw [hsame hL]
    exact .error _

theorem toOption (h : L.Yields R x y) : Option.Rel R x.toOption y.toOption := by
  cases h with
  | ok h => exact .some h
  | error => exact .none

theorem bind (h : L.Yields R x y) {f : α → Except Failure β} {g : α' → Except Failure β'}
    (hfg : ∀ a b, R a b → L.Yields S (f a) (g b)) : L.Yields S (x.bind f) (y.bind g) := by
  cases h with
  | ok h => exact hfg _ _ h
  | error hsame hdeep => exact .error hsame hdeep

end Likeness.Yields

/-! ### Runs that are alike -/

/-- Which of two runs may nest too deep while nothing is said of the other. -/
inductive Excuse where
  | neither
  | first
  | second

/-- One of the runs is excused. -/
def Excuse.Covers (excuse : Excuse) {α β : Type} (x : Except Failure α) (y : Except Failure β) : Prop :=
  match excuse with
  | .neither => False
  | .first => x = .error .nestedTooDeep
  | .second => y = .error .nestedTooDeep

theorem Excuse.Covers.through {excuse : Excuse} {α α' β β' : Type} {x : Except Failure α} {y : Except Failure β}
    {x' : Except Failure α'} {y' : Except Failure β'} (h : excuse.Covers x y)
    (hx : ∀ failure, x = .error failure → x' = .error failure)
    (hy : ∀ failure, y = .error failure → y' = .error failure) : excuse.Covers x' y' := by
  cases excuse with
  | neither => exact h
  | first => exact hx _ h
  | second => exact hy _ h

namespace Run

variable {σ σ' τ τ' ρ ρ' π π' : Type} {L : Likeness} {T : σ → σ' → Prop} {U : τ → τ' → Prop} {R : ρ → ρ' → Prop}
  {S : π → π' → Prop} {excuse : Excuse}

/-- Two runs leave trees and contexts that are alike and the same source, and
    yield what is related or both fail. -/
structure Alike (L : Likeness) (T : σ → σ' → Prop) (R : ρ → ρ' → Prop) (x : Run σ ρ) (y : Run σ' ρ') : Prop where
  tree : T x.tree y.tree
  context : x.context.Alike L y.context
  source : x.source = y.source
  result : L.Yields R x.result y.result

/-- The two runs are alike, unless one is excused. -/
def Tracks (excuse : Excuse) (L : Likeness) (T : σ → σ' → Prop) (R : ρ → ρ' → Prop) (x : Run σ ρ) (y : Run σ' ρ') :
    Prop :=
  excuse.Covers x.result y.result ∨ x.Alike L T R y

variable {x : Run σ ρ} {y : Run σ' ρ'}

theorem Tracks.alike (h : x.Tracks .neither L T R y) : x.Alike L T R y := h.resolve_left id

theorem Tracks.withTree (h : x.Tracks excuse L T R y) {f : σ → τ} {g : σ' → τ'}
    (hfg : ∀ a a', T a a' → U (f a) (g a')) : (x.withTree f).Tracks excuse L U R (y.withTree g) :=
  h.imp_right fun h => ⟨hfg _ _ h.tree, h.context, h.source, h.result⟩

theorem Tracks.withResult (h : x.Tracks excuse L T R y) {f : ρ → Except Failure π} {g : ρ' → Except Failure π'}
    (hfg : ∀ a b, R a b → L.Yields S (f a) (g b)) : (x.withResult f).Tracks excuse L T S (y.withResult g) := by
  rcases h with hexcused | h
  · exact .inl (hexcused.through (fun _ => result_withResult_of_error f) fun _ => result_withResult_of_error g)
  · exact .inr ⟨h.tree, h.context, h.source, h.result.bind hfg⟩

theorem Tracks.back (h : x.Tracks excuse L T R y) {context context' : Context} (hcontext : context.Alike L context') :
    (x.back context).Tracks excuse L T R (y.back context') :=
  h.imp_right fun h => ⟨h.tree, hcontext, h.source, h.result⟩

theorem Tracks.andThen (h : x.Tracks excuse L T R y) {untouched : τ} {untouched' : τ'}
    (huntouched : U untouched untouched') {next : ρ → Context → Source → Run τ π}
    {next' : ρ' → Context → Source → Run τ' π'}
    (hnext : ∀ a b context context' source, R a b → context.Alike L context' →
      (next a context source).Tracks excuse L U S (next' b context' source)) :
    (x.andThen untouched next).Tracks excuse L (fun a a' => T a.1 a'.1 ∧ U a.2 a'.2) S
      (y.andThen untouched' next') := by
  rcases h with hexcused | h
  · exact .inl (hexcused.through (fun _ => result_andThen_of_error untouched next)
      fun _ => result_andThen_of_error untouched' next')
  · have hresult := h.result
    unfold Run.andThen
    generalize x.result = result, y.result = result' at hresult
    cases hresult with
    | error hsame hdeep => exact .inr ⟨⟨h.tree, huntouched⟩, h.context, h.source, .error hsame hdeep⟩
    | ok hvalue =>
      rw [← h.source]
      exact (hnext _ _ _ _ _ hvalue h.context).withTree fun _ _ hsecond => ⟨h.tree, hsecond⟩

theorem Tracks.onward (h : x.Tracks excuse L T R y) {next : Run σ ρ → ρ → Run σ ρ}
    {next' : Run σ' ρ' → ρ' → Run σ' ρ'}
    (hnext : ∀ a b, R a b → x.Alike L T R y → (next x a).Tracks excuse L T R (next' y b)) :
    (x.onward next).Tracks excuse L T R (y.onward next') := by
  rcases h with hexcused | h
  · exact .inl (hexcused.through (fun _ hx => (congrArg result (onward_of_error next hx)).trans hx)
      fun _ hy => (congrArg result (onward_of_error next' hy)).trans hy)
  · have hresult := h.result
    cases hx : x.result with
    | error failure =>
      cases hy : y.result with
      | error failure' =>
        rw [onward_of_error next hx, onward_of_error next' hy]
        exact .inr h
      | ok b =>
        rw [hx, hy] at hresult
        cases hresult
    | ok a =>
      cases hy : y.result with
      | error failure =>
        rw [hx, hy] at hresult
        cases hresult
      | ok b =>
        rw [hx, hy] at hresult
        cases hresult with
        | ok hvalue =>
          unfold Run.onward
          rw [hx, hy]
          exact hnext a b hvalue h

/-- Runs that do nothing yet. -/
theorem Tracks.still {tree : σ} {tree' : σ'} {context context' : Context} {result : Except Failure ρ}
    {result' : Except Failure ρ'} (htree : T tree tree') (hcontext : context.Alike L context') (source : Source)
    (hresult : L.Yields R result result') :
    (Run.mk tree context source result).Tracks excuse L T R ⟨tree', context', source, result'⟩ :=
  .inr ⟨htree, hcontext, rfl, hresult⟩

end Run

namespace Realizer

/-- The second realizer runs nodes like the first one runs nodes that are alike. -/
def Tracks (excuse : Excuse) (L : Likeness) (r r' : Realizer) : Prop :=
  ∀ loose node node' context context' source, node.Alike L loose node' → context.Alike L context' →
    (r node context source).Tracks excuse L (Node.Alike L loose) L.Steps (r' node' context' source)

variable {L : Likeness} {excuse : Excuse} {r r' : Realizer} {context context' : Context} {loose : Bool}

/-- Steps behind steps. -/
theorem yields_append {steps steps' : List Step} (h : L.Steps steps steps') (others others' : List Step)
    (hothers : L.Steps others others') :
    L.Yields L.Steps (.ok (steps ++ others)) (.ok (steps' ++ others')) := .ok (List.rel_append h hothers)

theorem yields_assignDurations (hL : L.Lawful) (steps steps' : List Step) (h : L.Steps steps steps') :
    L.Yields L.Events (assignDurations steps) (assignDurations steps') := .of_same (hL.events.assignDurations h)

theorem Tracks.inOrder (h : Tracks excuse L r r') {nodes nodes' : List Node}
    (hnodes : List.Forall₂ (Node.Alike L loose) nodes nodes') :
    ∀ {context context' : Context} (source : Source), context.Alike L context' →
      (inOrder r nodes context source).Tracks excuse L (List.Forall₂ (Node.Alike L loose)) L.Steps
        (inOrder r' nodes' context' source) := by
  induction hnodes with
  | nil =>
    intro context context' source hcontext
    exact .still .nil hcontext source (.ok .nil)
  | cons hnode hmore ih =>
    intro context context' source hcontext
    refine ((h _ _ _ _ _ source hnode hcontext).andThen hmore ?_).withTree fun _ _ htrees => .cons htrees.1 htrees.2
    intro steps steps' context context' source hsteps hcontext
    exact (ih source hcontext).withResult (yields_append hsteps)

theorem Tracks.events (h : Tracks excuse L r r') (hL : L.Lawful) {node node' : Node} (hnode : node.Alike L loose node')
    (source : Source) (hcontext : context.Alike L context') :
    (events r node context source).Tracks excuse L (Node.Alike L loose) L.Events (events r' node' context' source) :=
  ((h _ _ _ _ _ source hnode hcontext).withResult (yields_assignDurations hL)).back hcontext

/-! ### Numbers and repeats -/

/-- Steps that yield no pitch are named by the text of the node. -/
theorem yields_number (hL : L.Lawful) {text text' : String} (htext : L.Literal → text = text') {steps steps' : List Step}
    (h : L.Steps steps steps') :
    L.Yields (· = ·)
      (match steps.findSome? Step.pitch? with
        | some pitch => .ok pitch.degree
        | none => .error (.noNumber text))
      (match steps'.findSome? Step.pitch? with
        | some pitch => .ok pitch.degree
        | none => .error (.noNumber text')) := by
  have hdegree := Step.Rel.firstDegree hL.events h
  generalize steps.findSome? Step.pitch? = first, steps'.findSome? Step.pitch? = first' at hdegree
  cases first with
  | none =>
    cases first' with
    | none =>
      refine .error (fun hliteral => by rw [htext hliteral]) (iff_of_false ?_ ?_)
      · exact fun h => by cases h
      · exact fun h => by cases h
    | some p' => cases hdegree
  | some p =>
    cases first' with
    | none => cases hdegree
    | some p' => exact .ok (Option.some.inj hdegree)

theorem Tracks.number (h : Tracks excuse L r r') (hL : L.Lawful) {node node' : Node} (hnode : node.Alike L false node')
    (source : Source) (hcontext : context.Alike L context') :
    (number r node context source).Tracks excuse L (Node.Alike L false) (· = ·) (number r' node' context' source) := by
  have hrun := ((h _ _ _ _ _ source hnode hcontext).withResult fun _ _ hsteps =>
    yields_number hL (hnode.text_eq hL) hsteps).back hcontext
  cases hnode with
  | plain _ hplain =>
    cases node with
    | integer text value => exact .still (.plain _ rfl) hcontext source (.ok rfl)
    | _ => exact hrun
  | _ => exact hrun

theorem Tracks.passes (h : Tracks excuse L r r') (prepare : Source → Source) (hcontext : context.Alike L context')
    (times : Nat) :
    ∀ {nodes nodes' : List Node} (source : Source), List.Forall₂ (Node.Alike L true) nodes nodes' →
      (passes r prepare context times nodes source).Tracks excuse L (List.Forall₂ (Node.Alike L true)) L.Steps
        (passes r' prepare context' times nodes' source) := by
  induction times with
  | zero =>
    intro nodes nodes' source hnodes
    exact .still hnodes hcontext source (.ok .nil)
  | succ times ih =>
    intro nodes nodes' source hnodes
    rw [passes_succ, passes_succ]
    refine ((h.inOrder hnodes (prepare source) hcontext).back hcontext).onward ?_
    intro steps steps' hsteps hpass
    rw [← hpass.source]
    exact (ih _ hpass.tree).withResult (yields_append hsteps)

theorem Tracks.repeated (h : Tracks excuse L r r') (prepare : Source → Source) (times : Nat) {nodes nodes' : List Node}
    (hnodes : List.Forall₂ (Node.Alike L true) nodes nodes') (source : Source) (hcontext : context.Alike L context') :
    (repeated r prepare times nodes context source).Tracks excuse L (List.Forall₂ (Node.Alike L true)) L.Steps
      (repeated r' prepare times nodes' context' source) := by
  cases times with
  | zero => exact .still hnodes hcontext source (.ok .nil)
  | succ times =>
    rw [repeated_succ, repeated_succ]
    refine (h.passes id hcontext 1 source hnodes).onward ?_
    intro steps steps' hsteps hpass
    rw [← hpass.source]
    exact (h.passes prepare hcontext times _ hpass.tree).withResult (yields_append hsteps)

theorem Tracks.repetition (h : Tracks excuse L r r') (hL : L.Lawful) (text : String) (replayed : Bool)
    {values values' : List Node} {count count' : Node} (hvalues : List.Forall₂ (Node.Alike L true) values values')
    (hcount : count.Alike L false count') (source : Source) (hcontext : context.Alike L context') :
    (repetition r text replayed values count context source).Tracks excuse L (Node.Alike L loose) L.Steps
      (repetition r' text replayed values' count' context' source) := by
  unfold Realizer.repetition
  refine ((h.number hL hcount source hcontext).andThen hvalues ?_).withTree
    fun _ _ htrees => .repetition _ _ _ htrees.2 htrees.1
  rintro times _ context context' source rfl hcontext
  by_cases htimes : times ≤ 0
  · simp only [if_pos htimes]
    exact .still hvalues hcontext source (.ok .nil)
  · simp only [if_neg htimes]
    cases replayed with
    | false => exact h.repeated id times.toNat hvalues source hcontext
    | true =>
      refine (h.repeated Source.rewind times.toNat hvalues source.record hcontext).imp_right ?_
      intro hrun
      exact ⟨hrun.tree, hrun.context, congrArg Source.finish hrun.source, hrun.result⟩

/-! ### List operations -/

theorem rel_interleave {R : Node → Node → Prop} {left left' right right' : List Node}
    (hleft : List.Forall₂ R left left') (hright : List.Forall₂ R right right') :
    List.Forall₂ R (ListArithmetic.interleave left right) (ListArithmetic.interleave left' right') := by
  unfold ListArithmetic.interleave
  rw [isEmpty_eq_of_rel hleft, isEmpty_eq_of_rel hright, hleft.length_eq, hright.length_eq]
  split
  · exact hright
  · split
    · exact hleft
    · refine List.rel_flatMap (R := (· = ·)) (List.forall₂_refl _) ?_
      rintro i _ rfl
      exact List.rel_append (rel_toList (rel_getElem? hleft _)) (rel_toList (rel_getElem? hright _))

theorem Tracks.zipped (h : Tracks excuse L r r') (hL : L.Lawful) {left left' : List Node} {right right' : Option Node}
    (hleft : List.Forall₂ (Node.Alike L true) left left') (hright : Option.Rel (Node.Alike L false) right right')
    (source : Source) (hcontext : context.Alike L context') :
    (zipped r left right context source).Tracks excuse L (fun _ _ => True) L.Events
      (zipped r' left' right' context' source) := by
  have helements : List.Forall₂ (Node.Alike L true) ((right.map Node.elements).getD [])
      ((right'.map Node.elements).getD []) := by
    cases hright with
    | none => exact .nil
    | some hright => exact loosen_all (hright.elements hL)
  have hrun := h.inOrder (rel_interleave hleft helements) source hcontext
  have hevents := (hrun.withResult (yields_assignDurations hL)).back hcontext
  unfold Realizer.zipped
  exact hevents.withTree (U := fun _ _ => True) fun _ _ _ => trivial

theorem Tracks.operand (h : Tracks excuse L r r') (hL : L.Lawful) {right right' : Option Node}
    (hright : Option.Rel (Node.Alike L false) right right') (source : Source) (hcontext : context.Alike L context') :
    (operand r right context source).Tracks excuse L (Option.Rel (Node.Alike L false)) L.Events
      (operand r' right' context' source) := by
  cases hright with
  | none => exact .still .none hcontext source (.ok .nil)
  | some hright => exact (h.events hL hright source hcontext).withTree fun _ _ hnode => .some hnode

theorem alike_events {events events' : List Event} (h : L.Events events events') :
    List.Forall₂ (Node.Alike L loose) (events.map .event) (events'.map .event) :=
  List.rel_map (fun _ _ he => .event _ he) h

theorem Tracks.operation (h : Tracks excuse L r r') (hL : L.Lawful) {left left' : List Event} (hleft : L.Events left left')
    {step step' : Operation Node} (hstep : step.Rel (Node.Alike L false) step') (source : Source)
    (hcontext : context.Alike L context') :
    (operation r left step context source).Tracks excuse L (Operation.Rel (Node.Alike L false)) L.Events
      (operation r' left' step' context' source) := by
  cases hstep with
  | map expr =>
    refine .still (.map expr) hcontext source ?_
    rw [hcontext.options]
    exact .of_same (hL.events.mapEvents hleft expr _)
  | binary op hright =>
    have hoperand := h.operand hL hright source hcontext
    cases op with
    | zip =>
      have hzip := h.zipped hL (alike_events hleft) hright source hcontext
      exact hzip.withTree (U := Operation.Rel (Node.Alike L false)) fun _ _ _ => .binary _ hright
    | vertical =>
      exact (hoperand.withTree fun _ _ => .binary _).withResult fun _ _ hrights => .ok (hL.events.vertical hleft hrights)
    | horizontal =>
      exact (hoperand.withTree fun _ _ => .binary _).withResult
        fun _ _ hrights => .ok (hL.events.horizontal hleft hrights)
    | arithmetic op =>
      refine (hoperand.withTree fun _ _ => .binary _).withResult ?_
      intro rights rights' hrights
      rw [hcontext.options]
      exact .of_same (hL.events.combine hleft hrights op _)

theorem Tracks.operationsOn (h : Tracks excuse L r r') (hL : L.Lawful) {steps steps' : List (Operation Node)}
    (hsteps : List.Forall₂ (Operation.Rel (Node.Alike L false)) steps steps') :
    ∀ {left left' : List Event} {context context' : Context} (source : Source), L.Events left left' →
      context.Alike L context' →
      (operationsOn r left steps context source).Tracks excuse L (List.Forall₂ (Operation.Rel (Node.Alike L false)))
        L.Events (operationsOn r' left' steps' context' source) := by
  induction hsteps with
  | nil =>
    intro left left' context context' source hleft hcontext
    exact .still .nil hcontext source (.ok hleft)
  | cons hstep hmore ih =>
    intro left left' context context' source hleft hcontext
    refine ((h.operation hL hleft hstep source hcontext).andThen hmore ?_).withTree
      fun _ _ htrees => .cons htrees.1 htrees.2
    intro events events' context context' source hevents hcontext
    exact ih source hevents hcontext

/-- Events become ready steps. -/
theorem yields_ready (events events' : List Event) (h : L.Events events events') :
    L.Yields L.Steps (.ok (events.map .ready)) (.ok (events'.map .ready)) :=
  .ok (List.rel_map (fun _ _ he => .ready he) h)

theorem Tracks.operations (h : Tracks excuse L r r') (hL : L.Lawful) (text : String) {left left' : Node}
    {steps steps' : List (Operation Node)} (hleft : left.Alike L false left')
    (hsteps : List.Forall₂ (Operation.Rel (Node.Alike L false)) steps steps') (source : Source)
    (hcontext : context.Alike L context') :
    (operations r text left steps context source).Tracks excuse L (Node.Alike L loose) L.Steps
      (operations r' text left' steps' context' source) := by
  have hothers := (h.events hL hleft source hcontext).andThen hsteps fun _ _ _ _ source hevents hcontext =>
    h.operationsOn hL hsteps source hevents hcontext
  have hrun := hothers.withTree (U := Node.Alike L loose) (f := fun tree => .operations text tree.1 tree.2)
    (g := fun tree => .operations text tree.1 tree.2) fun _ _ htrees => .operations _ _ htrees.1 htrees.2
  unfold Realizer.operations
  refine Run.Tracks.withResult ?_ yields_ready
  cases hsteps with
  | nil => exact hrun
  | cons hstep hmore =>
    cases hstep with
    | map expr => exact hrun
    | binary op hright =>
      cases op with
      | zip =>
        refine ((h.zipped hL (loosen_all (hleft.elements hL)) hright source hcontext).andThen hmore
          fun _ _ _ _ source hevents hcontext => h.operationsOn hL hmore source hevents hcontext).withTree ?_
        intro _ _ htrees
        exact .operations _ _ hleft (.cons (.binary _ hright) htrees.2)
      | _ => exact hrun

/-! ### Lists dealt out -/

/-- Two decks with elements that are alike, at the same turn. -/
structure Deck.Alike (L : Likeness) (loose : Bool) (deck deck' : Deck) : Prop where
  elements : List.Forall₂ (Node.Alike L loose) deck.elements deck'.elements
  dealt : deck.dealt = deck'.dealt
  context : deck.context.Alike L deck'.context

theorem Deck.Alike.ofList (hL : L.Lawful) {node node' : Node} (hnode : node.Alike L false node')
    (hcontext : context.Alike L context') :
    (Deck.ofList node context).Alike L node.isSequence (Deck.ofList node' context') where
  elements := hnode.elements hL
  dealt := rfl
  context := by
    unfold Deck.ofList
    rw [← hnode.listOverrides_eq]
    exact hcontext.inside node.listOverrides

theorem Tracks.deal (h : Tracks excuse L r r') {deck deck' : Deck} (hdeck : deck.Alike L loose deck') (source : Source) :
    (deck.deal r source).Tracks excuse L (Deck.Alike L loose) L.Steps (deck'.deal r' source) := by
  unfold Deck.deal
  simp only [← hdeck.dealt, ← hdeck.elements.length_eq]
  have hplace := rel_getElem? hdeck.elements (deck.dealt % deck.elements.length)
  generalize deck.elements[deck.dealt % deck.elements.length]? = element,
    deck'.elements[deck.dealt % deck.elements.length]? = element' at hplace
  cases hplace with
  | none => exact .still hdeck hdeck.context source (.ok .nil)
  | some helement =>
    refine (h _ _ _ _ _ source helement hdeck.context).imp_right ?_
    intro hrun
    exact ⟨⟨rel_set hdeck.elements _ hrun.tree, rfl, hrun.context⟩, hrun.context, hrun.source, hrun.result⟩

/-- Two pairs of decks that are alike. -/
structure DecksAlike (L : Likeness) (looseOn looseOff : Bool) (decks decks' : Deck × Deck) : Prop where
  on : decks.1.Alike L looseOn decks'.1
  off : decks.2.Alike L looseOff decks'.2

variable {looseOn looseOff : Bool}

theorem Tracks.beat (h : Tracks excuse L r r') {silence : Step} (hsilence : silence.Rel L.event silence) (hit : Bool) {on on' off off' : Deck}
    (hon : on.Alike L looseOn on') (hoff : off.Alike L looseOff off') (source : Source) :
    (beat r silence hit on off source).Tracks excuse L (DecksAlike L looseOn looseOff) L.Steps
      (beat r' silence hit on' off' source) := by
  unfold Realizer.beat
  cases hit with
  | true =>
    simp only [if_true]
    exact (h.deal hon source).withTree fun _ _ hdeck => ⟨hdeck, hoff⟩
  | false =>
    simp only [Bool.false_eq_true, if_false, ← isEmpty_eq_of_rel hoff.elements]
    by_cases hempty : off.elements.isEmpty
    · simp only [if_pos hempty]
      exact .still ⟨hon, hoff⟩ hon.context source (.ok (.cons hsilence .nil))
    · simp only [if_neg hempty]
      exact (h.deal hoff source).withTree fun _ _ hdeck => ⟨hon, hdeck⟩

theorem Tracks.dealt (h : Tracks excuse L r r') {silence : Step} (hsilence : silence.Rel L.event silence)
    (rhythm : List Bool) :
    ∀ {on on' off off' : Deck} (source : Source), on.Alike L looseOn on' → off.Alike L looseOff off' →
      (dealt r silence rhythm on off source).Tracks excuse L (DecksAlike L looseOn looseOff) L.Steps
        (dealt r' silence rhythm on' off' source) := by
  induction rhythm with
  | nil =>
    intro on on' off off' source hon hoff
    exact .still ⟨hon, hoff⟩ hon.context source (.ok .nil)
  | cons hit more ih =>
    intro on on' off off' source hon hoff
    rw [dealt_cons, dealt_cons]
    refine (h.beat hsilence hit hon hoff source).onward ?_
    intro steps steps' hsteps hbeat
    rw [← hbeat.source]
    exact (ih _ hbeat.tree.on hbeat.tree.off).withResult (yields_append hsteps)

theorem alike_refill (hL : L.Lawful) {values values' : List Node}
    (hvalues : List.Forall₂ (Node.Alike L loose) values values') :
    ∀ {elements elements' : List Node}, List.Forall₂ (Node.Alike L loose) elements elements' →
      List.Forall₂ (Node.Alike L loose) (refill values elements) (refill values' elements') := by
  induction hvalues with
  | nil =>
    intro elements elements' _
    exact .nil
  | @cons value value' values values' hvalue hmore ih =>
    intro elements elements' helements
    unfold refill
    rw [← hvalue.isBlank_eq hL]
    cases value.isBlank with
    | true => exact .cons hvalue (ih helements)
    | false =>
      cases helements with
      | nil => exact .cons hvalue (ih .nil)
      | cons helement helements => exact .cons helement (ih helements)

theorem alike_withElements (hL : L.Lawful) {node node' : Node} (hnode : node.Alike L false node')
    {elements elements' : List Node} (helements : List.Forall₂ (Node.Alike L node.isSequence) elements elements') :
    (withElements node elements).Alike L false (withElements node' elements') := by
  have hhead : node.isSequence = false →
      (elements.headD node).Alike L false (elements'.headD node') := by
    intro hsingle
    rw [hsingle] at helements
    cases helements with
    | nil => exact hnode
    | cons helement _ => exact helement
  cases hnode with
  | sequence _ overrides isList htext hvalues => exact .sequence _ _ _ htext (alike_refill hL hvalues helements)
  | plain _ hplain =>
    cases node with
    | sequence text overrides isList values => cases hplain
    | _ => exact hhead rfl
  | _ => exact hhead rfl

theorem Tracks.euclid (h : Tracks excuse L r r') (hL : L.Lawful) (text : String) (pulses length : Nat) (rotate : Int)
    {onset onset' : Node} {offset offset' : Option Node} (honset : onset.Alike L false onset')
    (hoffset : Option.Rel (Node.Alike L false) offset offset') (source : Source) (hcontext : context.Alike L context') :
    (euclid r text pulses length rotate onset offset context source).Tracks excuse L (Node.Alike L loose) L.Steps
      (euclid r' text pulses length rotate onset' offset' context' source) := by
  unfold Realizer.euclid
  rw [← isEmpty_eq_of_rel (honset.elements hL), ← hcontext.options]
  by_cases hempty : onset.elements.isEmpty
  · simp only [if_pos hempty]
    exact .still (.euclid _ _ _ _ _ honset hoffset) hcontext source (.fails _)
  · simp only [if_neg hempty]
    have hon := Deck.Alike.ofList hL honset hcontext
    have hsilence := Step.Rel.ready (hL.events.refl (.rest { text := "r", duration := some context.options.duration }))
    cases hoffset with
    | none =>
      have hoff : Deck.Alike L true ⟨[], 0, context⟩ ⟨[], 0, context'⟩ := ⟨.nil, rfl, hcontext⟩
      refine ((h.dealt hsilence _ source hon hoff).back hcontext).withTree ?_
      intro _ _ hdecks
      exact .euclid _ _ _ _ _ (alike_withElements hL honset hdecks.on.elements) .none
    | some hoffset =>
      have hoff := Deck.Alike.ofList hL hoffset hcontext
      refine ((h.dealt hsilence _ source hon hoff).back hcontext).withTree ?_
      intro _ _ hdecks
      exact .euclid _ _ _ _ _ (alike_withElements hL honset hdecks.on.elements)
        (.some (alike_withElements hL hoffset hdecks.off.elements))

/-! ### Variables -/

theorem Tracks.use (h : Tracks excuse L r r') (hL : L.Lawful) {name : String} (hname : L.used name) (text : String) (source : Source)
    (hcontext : context.Alike L context') :
    (use r name text context source).Tracks excuse L (fun _ _ => True) L.Steps (use r' name text context' source) := by
  unfold Realizer.use
  have hstored := hcontext.stored name hname
  generalize context.stored.lookup name = value, context'.stored.lookup name = value' at hstored
  cases hstored with
  | none =>
    rw [hcontext.options]
    refine .still trivial hcontext source (.of_same ?_)
    exact .refl (Step.Rel.refl_all hL.events) _
  | some hvalue => exact (h _ _ _ _ _ source hvalue hcontext).withTree fun _ _ _ => trivial

theorem Tracks.layers (h : Tracks excuse L r r') (hL : L.Lawful) (hcontext : context.Alike L context')
    (names : List String) :
    ∀ (source : Source), (∀ name ∈ names, L.used name) →
      (layers r context names source).Tracks excuse L (fun _ _ => True) (List.Forall₂ L.Events)
        (layers r' context' names source) := by
  induction names with
  | nil =>
    intro source _
    exact .still trivial hcontext source (.ok .nil)
  | cons name more ih =>
    intro source hnames
    have huse := h.use hL (hnames name (List.mem_cons_self ..)) name source hcontext
    have hrun := (huse.withResult (yields_assignDurations hL)).back hcontext
    have hmore := fun source => ih source fun name hname => hnames name (List.mem_cons_of_mem _ hname)
    rw [layers_cons, layers_cons]
    exact (hrun.andThen (U := fun _ _ => True) trivial fun _ _ _ _ source hlayer _ =>
      (hmore source).withResult fun _ _ hothers => .ok (.cons hlayer hothers)).withTree fun _ _ _ => trivial

/-! ### One level, and whole trees -/

theorem Tracks.visit (h : Tracks excuse L r r') (text : String) (visits : Nat) {values values' : List Node}
    (hvalues : List.Forall₂ (Node.Alike L true) values values') (source : Source) (hcontext : context.Alike L context') :
    (visit r text values visits context source).Tracks excuse L (Node.Alike L loose) L.Steps
      (visit r' text values' visits context' source) := by
  unfold Realizer.visit
  simp only [← hvalues.length_eq]
  have hplace := rel_getElem? hvalues (visits % values.length)
  generalize values[visits % values.length]? = value, values'[visits % values.length]? = value' at hplace
  cases hplace with
  | none => exact .still (.cycle _ _ _ hvalues) hcontext source (.ok .nil)
  | some hvalue =>
    exact (h _ _ _ _ _ source hvalue hcontext).withTree fun _ _ htree => .cycle _ _ _ (rel_set hvalues _ htree)

theorem Tracks.assignment (h : Tracks excuse L r r') (hL : L.Lawful) (text : String) {name : String} (eager : Bool)
    {value value' : Node} (hname : L.assigned name) (hvalue : value.Alike L true value') (source : Source)
    (hcontext : context.Alike L context') :
    (assignment r text name eager value context source).Tracks excuse L (Node.Alike L loose) L.Steps
      (assignment r' text name eager value' context' source) := by
  unfold Realizer.assignment
  cases eager with
  | false => exact .still (.assignment _ _ _ hname hvalue) (hcontext.assign hL hname hvalue) source (.ok .nil)
  | true =>
    simp only [if_true]
    rcases h.events hL hvalue source hcontext with hexcused | hrun
    · refine .inl (hexcused.through ?_ ?_)
      · intro failure hx
        simp only [hx]
      · intro failure hy
        simp only [hy]
    · have hresult := hrun.result
      generalize (Realizer.events r value context source).result = played,
        (Realizer.events r' value' context' source).result = played' at hresult
      cases hresult with
      | error hsame hdeep => exact .inr ⟨.assignment _ _ _ hname hrun.tree, hcontext, hrun.source, .error hsame hdeep⟩
      | ok hplayed =>
        have hevents : List.Forall₂ (Node.Alike L true) _ _ := alike_events hplayed
        have hstored := Node.Alike.sequence true {} true (fun hliteral => hvalue.text_eq hL hliteral) hevents
        exact .inr ⟨.assignment _ _ _ hname hrun.tree, hcontext.assign hL hname hstored, hrun.source, .ok .nil⟩

/-- A numeral that may stand for another one answers alike, and so they do afterwards. -/
theorem numeral_tracks (hL : L.Lawful) {k k' : KeptNumeral} (hk : L.numeral k k') (source : Source)
    (hcontext : context.Alike L context') {stored stored' : Realizer} :
    (level r stored (.numeral k) context source).Tracks excuse L (Node.Alike L loose) L.Steps
      (level r' stored' (.numeral k') context' source) := by
  obtain ⟨hanswer, hleft⟩ := hL.answers hk hcontext.options
  simp only [Realizer.level]
  exact .still (.numeral _ hleft) hcontext source (.of_same (hanswer.map fun _ _ hchord => .cons (.ready hchord) .nil))

/-- **One level of trees that are alike is run alike**, where nothing is
    written out, if the nodes inside and the stored values are. -/
theorem Tracks.level {inner inner' stored stored' : Realizer} (h : Tracks excuse L inner inner')
    (hstored : Tracks excuse L stored stored') (hL : L.Lawful) {node node' : Node} (hnode : node.Alike L false node')
    (source : Source) (hcontext : context.Alike L context') :
    (level inner stored node context source).Tracks excuse L (Node.Alike L loose) L.Steps
      (level inner' stored' node' context' source) := by
  have hsteps (steps : List Step) : L.Steps steps steps := Step.Rel.refl_all hL.events steps
  cases hnode with
  | plain _ hplain =>
    have hself : node.Alike L loose node := .plain _ hplain
    cases node with
    | blank text => exact .still hself hcontext source (.ok .nil)
    | bar text => exact .still hself hcontext.nextMeasure source (.ok .nil)
    | change text change => exact .still hself (hcontext.after change) source (.ok .nil)
    | randomPitch text overrides =>
      simp only [Realizer.level, hcontext.options]
      exact .still hself hcontext _ (.ok (hsteps _))
    | randomInteger text overrides low high =>
      simp only [Realizer.level, hcontext.options]
      exact .still hself hcontext _ (.ok (hsteps _))
    | integer text value =>
      simp only [Realizer.level, hcontext.options]
      exact .still hself hcontext source (.ok (hsteps _))
    | range text overrides first last =>
      simp only [Realizer.level, hcontext.options]
      exact .still hself hcontext source (.ok (hsteps _))
    | expression text overrides expr =>
      simp only [Realizer.level, hcontext.options]
      exact .still hself hcontext source (.of_same (.refl hsteps _))
    | _ => cases hplain
  | event _ he =>
    simp only [Realizer.level, hcontext.options]
    exact .still (.event _ he) hcontext source (.ok (.cons (.ready (hL.events.against he _)) .nil))
  | numeral _ hk => exact numeral_tracks hL hk source hcontext
  | sequence _ overrides isList htext hvalues =>
    exact ((h.inOrder hvalues source (hcontext.inside overrides)).back hcontext).withTree
      fun _ _ htree => .sequence _ _ _ htext htree
  | cycle _ text visits hvalues => exact h.visit text visits hvalues source hcontext
  | subdivision _ text overrides hvalues =>
    simp only [Realizer.level, (hcontext.inside overrides).options]
    exact (((h.inOrder hvalues source (hcontext.inside overrides)).withResult
      fun _ _ hinside => .ok (.cons (.subdivided _ hinside) .nil)).back hcontext).withTree
      fun _ _ htree => .subdivision _ _ _ htree
  | repetition _ text replayed hvalues hcount => exact h.repetition hL text replayed hvalues hcount source hcontext
  | operations _ text hleft hsteps => exact h.operations hL text hleft hsteps source hcontext
  | euclid _ text pulses length rotate honset hoffset =>
    exact h.euclid hL text pulses length rotate honset hoffset source hcontext
  | assignment _ text eager hname hvalue => exact h.assignment hL text eager hname hvalue source hcontext
  | «variable» _ text hname =>
    exact (hstored.use hL hname text source hcontext).withTree (U := Node.Alike L loose) fun _ _ _ => .variable _ _ hname
  | together _ text hnames =>
    refine Run.Tracks.withTree (T := fun _ _ => True) (U := Node.Alike L loose) ?_ fun _ _ _ => .together _ _ hnames
    exact (hstored.layers hL hcontext _ source hnames).withResult
      fun _ _ hlayers => .ok (.cons (.ready (hL.events.together text hlayers)) .nil)

theorem exhausted_tracks (excuse : Excuse) (L : Likeness) : Tracks excuse L exhausted exhausted :=
  fun _ _ _ _ _ source hnode hcontext => .still hnode hcontext source (.fails _)

theorem toDepth_tracks (hL : L.Lawful) (hliteral : L.Literal) {stored stored' : Realizer}
    (hstored : Tracks excuse L stored stored') (depth : Nat) :
    Tracks excuse L (toDepth stored depth) (toDepth stored' depth) := by
  induction depth with
  | zero => exact exhausted_tracks excuse L
  | succ depth ih =>
    intro loose node node' context context' source hnode hcontext
    exact ih.level hstored hL (hnode.tighten hliteral) source hcontext

/-- **Trees that are alike are run alike**, to any depth of variables. -/
theorem nested_tracks (hL : L.Lawful) (hliteral : L.Literal) (limit : Nat) :
    Tracks .neither L (nested limit) (nested limit) := by
  induction limit with
  | zero => exact exhausted_tracks .neither L
  | succ limit ih =>
    intro loose node node' context context' source hnode hcontext
    -- both nodes are run to the depth of the deeper one
    have hdeeper (node : Node) (depth : Nat) (hdepth : node.depth ≤ depth) (context : Context) :
        nested (limit + 1) node context source = toDepth (nested limit) depth node context source :=
      (toDepth_inStep _ (nested_inStep coupled_eq limit) node.depth (Nat.le_refl _) hdepth 0 node context source source
        (Nat.le_refl _) rfl).eq
    rw [hdeeper node _ (Nat.le_max_left node.depth node'.depth), hdeeper node' _ (Nat.le_max_right node.depth node'.depth)]
    exact toDepth_tracks hL hliteral ih _ loose node node' context context' source hnode hcontext

end Realizer

section Evaluation

variable {L : Likeness} (hL : L.Lawful) (hliteral : L.Literal)

include hL hliteral

theorem realize_tracks : Realizer.Tracks .neither L realize realize := Realizer.nested_tracks hL hliteral nestingLimit

/-- **Evaluations side by side.** -/
theorem evaluate_tracks {nodes nodes' : List Node} (hnodes : List.Forall₂ (Node.Alike L true) nodes nodes')
    {context context' : Context} (hcontext : context.Alike L context') (source : Source) :
    (evaluate nodes context source).Alike L (List.Forall₂ (Node.Alike L true)) L.Events
      (evaluate nodes' context' source) :=
  (((realize_tracks hL hliteral).inOrder hnodes source hcontext).withResult
    (Realizer.yields_assignDurations hL)).alike

end Evaluation

end NumberedMelody
