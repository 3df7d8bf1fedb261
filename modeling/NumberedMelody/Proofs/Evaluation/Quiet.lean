/-
  NumberedMelody/Proofs/Evaluation/Quiet.lean
  ===========================================
  **Trees that draw nothing.**  A tree is quiet if no node in it draws at random,
  and neither do the values of the variables that it uses; cycles may stand
  anywhere.  Runs of a quiet tree leave the source as it was, whether they yield
  or fail (`source_passes_of_quiet`).

  A hushed realizer gives back the source that it was given.  One level above
  hushed realizers has only tapes to start and to drop, so it is hushed itself
  (`source_level_hushed`), and a quiet tree cannot tell whether it is run by
  evaluation or by hushed evaluation (`quiet_follows_hushed`).
-/
import NumberedMelody.Proofs.Evaluation.Confined
import NumberedMelody.Proofs.Evaluation.SideBySide
import NumberedMelody.Proofs.Tree.Naming

namespace NumberedMelody

open NumberedMelody.Random (Source)

/-! ### Quiet trees -/

namespace Node

@[simp] theorem isRandom_unplayed (node : Node) : node.unplayed.isRandom = node.isRandom := by
  cases node <;> simp only [unplayed, isRandom]

/-- Nothing is random in the node, and the names that it uses are among these. -/
abbrev Quiet (names : String → Prop) : Node → Prop :=
  Everywhere fun node => node.isRandom = false ∧ ∀ name ∈ node.used, names name

end Node

/-- What is stored under the names is quiet. -/
def Context.Quiet (names : String → Prop) (context : Context) : Prop :=
  ∀ name, names name → ∀ value, context.stored.lookup name = some value → value.Quiet names

variable {names : String → Prop}

theorem quiet_event (e : Event) : (Node.event e).Quiet names :=
  .leaf ⟨rfl, fun name hname => (by cases hname)⟩ rfl

theorem quiet_within (names : String → Prop) : Realizer.Within (Node.Quiet names) (Node.Quiet names) := by
  refine Realizer.within_everywhere ?_ fun e => (quiet_event e).here
  rintro node other ⟨hrandom, hused⟩ hvisits
  constructor
  · rw [← Node.isRandom_unplayed, hvisits, Node.isRandom_unplayed, hrandom]
  · rw [← Node.used_unplayed, hvisits, Node.used_unplayed]
    exact hused

/-- The contexts in which quiet nodes are run; they may fail in any way. -/
def quiet (names : String → Prop) : Domain where
  context := Context.Quiet names

theorem Context.Quiet.assign {context : Context} (h : context.Quiet names) {value : Node} (hvalue : value.Quiet names)
    (name : String) : (context.assign name value).Quiet names := by
  intro other hother stored hstored
  rcases Context.lookup_assign hstored with ⟨-, rfl⟩ | hbefore
  · exact hvalue
  · exact h other hother stored hbefore

theorem quiet_lawful (names : String → Prop) : (quiet names).Lawful where
  inside := by
    intro context h overrides
    unfold Context.inside
    split
    · exact h
    · exact h
  after := fun h _ => h
  nextMeasure := fun h => h
  played := by
    intro context h name text events
    refine Context.Quiet.assign h (.intro ⟨rfl, fun name hname => (by cases hname)⟩ ?_) name
    intro child hchild
    obtain ⟨e, -, rfl⟩ := List.mem_map.mp hchild
    exact quiet_event e
  ordinary := fun _ => trivial

theorem quiet_admits (names : String → Prop) : (quiet names).Admits (Node.Quiet names) (Node.Quiet names) where
  assign := fun hnode hcontext => Context.Quiet.assign hcontext (hnode.inside _ (List.mem_singleton.mpr rfl)) _
  numeral := fun _ _ _ _ => trivial
  found := fun hnode hname hcontext hvalue => hcontext _ (hnode.here.2 _ hname) _ hvalue
  unknown := fun _ _ _ _ _ => trivial

/-! ### Hushed realizers -/

namespace Realizer

/-- The realizer, but the source stays as it was. -/
def hushed (r : Realizer) : Realizer := fun node context source => { r node context source with source }

variable {r : Realizer} {P Q : Node → Prop}

theorem KeepsShape.hushed (h : KeepsShape r) : KeepsShape (hushed r) := h

/-- The same source twice, which is this one once `n` tapes are dropped. -/
def Around (base : Source) (n : Nat) (s t : Source) : Prop := s = t ∧ Source.finish^[n] s = base

theorem finish_rewind (s : Source) : s.rewind.finish = s.finish := by
  obtain ⟨tapes, generator⟩ := s
  cases tapes <;> rfl

theorem around_taped (base : Source) : Taped (Around base) where
  record := by
    rintro n s _ ⟨rfl, h⟩
    exact ⟨rfl, h⟩
  rewind := by
    rintro n s _ ⟨rfl, h⟩
    refine ⟨rfl, ?_⟩
    rw [Function.iterate_succ_apply, finish_rewind, ← Function.iterate_succ_apply, h]
  finish := by
    rintro n s _ ⟨rfl, h⟩
    exact ⟨rfl, h⟩

theorem hushed_inStep (r : Realizer) (base : Source) : InStep (Around base) P (hushed r) (hushed r) := by
  rintro n node context s _ - ⟨rfl, h⟩
  exact ⟨rfl, rfl, ⟨rfl, h⟩, rfl⟩

/-- One level above hushed realizers leaves the source alone, whatever tapes the
    node starts. -/
theorem source_level_hushed {inner : Realizer} (stored : Realizer) (keeps : KeepsShape inner) {node : Node}
    (h : node.isRandom = false) (context : Context) (source : Source) :
    (level (hushed inner) (hushed stored) node context source).source = source := by
  have hlevel := InStep.level_of_not_random (around_taped source) (hushed_inStep inner source)
    (hushed_inStep stored source) keeps.hushed (.all fun _ => True)
  exact (hlevel 0 node context source source ⟨trivial, h⟩ ⟨rfl, rfl⟩).source.2

theorem source_passes_hushed (keeps : KeepsShape r) (nodes : List Node) (context : Context) (source : Source)
    (n : Nat) : (passes (hushed r) id context n nodes source).source = source := by
  have hpasses := InStep.passes (hushed_inStep r source) keeps.hushed (.all fun _ => True)
    (fun _ _ hst => hst) context n nodes source source (fun _ _ => trivial) (n := 0) ⟨rfl, rfl⟩
  exact hpasses.source.2

/-! ### Quiet trees are run as if hushed -/

/-- If what is inside and what is stored is run as if hushed, so is the level above. -/
theorem follows_hushed_level {inner stored : Realizer} (h : Follows (quiet names) Q inner (hushed inner))
    (hstored : Follows (quiet names) (Node.Quiet names) stored (hushed stored)) (keeps : KeepsShape inner)
    (hQ : Within P Q) (hP : ∀ node, P node → node.Quiet names) :
    Follows (quiet names) P (level inner stored) (hushed (level inner stored)) := by
  intro node context source hnode hcontext
  have hlevel := Follows.level (quiet_lawful names) ((quiet_admits names).imp hP) h hstored keeps.hushed hQ node
    context source hnode hcontext
  have hsource : (level inner stored node context source).source = source := by
    rw [hlevel.eq]
    exact source_level_hushed stored keeps (hP node hnode).here.1 context source
  refine ⟨?_, ?_, fun _ _ => trivial⟩
  · exact congrArg (Run.mk _ _ · _) hsource
  · have hleft := hlevel.context
    rw [← hlevel.eq] at hleft
    exact hleft

theorem follows_hushed_toDepth {stored : Realizer}
    (hstored : Follows (quiet names) (Node.Quiet names) stored (hushed stored)) (depth : Nat) :
    Follows (quiet names) (upTo (Node.Quiet names) depth) (toDepth stored depth) (hushed (toDepth stored depth)) := by
  induction depth with
  | zero => exact fun _ _ _ _ hcontext => .failed hcontext trivial
  | succ depth ih =>
    exact follows_hushed_level ih hstored (keepsShape_toDepth stored depth) (within_upTo (quiet_within names) depth)
      fun _ hnode => hnode.1

theorem follows_hushed_nested (names : String → Prop) (limit : Nat) :
    Follows (quiet names) (Node.Quiet names) (nested limit) (hushed (nested limit)) := by
  induction limit with
  | zero => exact fun _ _ _ _ hcontext => .failed hcontext trivial
  | succ limit ih =>
    intro node context source hnode hcontext
    exact follows_hushed_toDepth ih node.depth node context source ⟨hnode, Nat.le_refl _⟩ hcontext

end Realizer

/-- **Quiet trees are run as if evaluation were hushed.** -/
theorem quiet_follows_hushed (names : String → Prop) :
    Realizer.Follows (quiet names) (Node.Quiet names) realize (Realizer.hushed realize) :=
  Realizer.follows_hushed_nested names nestingLimit

/-- **Runs of quiet nodes leave the source as it was**, one after the other. -/
theorem source_passes_of_quiet {nodes : List Node} {context : Context} (hnodes : ∀ node ∈ nodes, node.Quiet names)
    (hcontext : context.Quiet names) (source : Source) (n : Nat) :
    (Realizer.passes realize id context n nodes source).source = source := by
  have hpasses := (quiet_follows_hushed names).passes realize_keepsShape.hushed (quiet_within names) id hcontext n
    nodes source hnodes
  rw [hpasses.eq]
  exact Realizer.source_passes_hushed realize_keepsShape nodes context source n

end NumberedMelody
