/-
  NumberedMelody/Evaluation/KeptChord.lean
  ========================================
  **Playing numerals.**  A numeral answers with the chord that it has kept as
  long as the options compare equal to those that the chord was built for.
  Otherwise it is spelled out, and keeps the new chord.
-/
import NumberedMelody.Evaluation.Context

namespace NumberedMelody.KeptNumeral

/-- The answer for options that the overrides are part of, and the numeral
    afterwards.  A failure leaves the numeral as it was. -/
def answerFor (k : KeptNumeral) (options : Options) : Except Failure Chord × KeptNumeral :=
  match k.keptFor options with
  | some chord => (.ok chord, k)
  | none =>
    match h : k.numeral.chordFor options with
    | .ok chord => (.ok chord, k.keep options chord h)
    | .error failure => (.error failure, k)

/-- The answer in a context. -/
def play (k : KeptNumeral) (context : Context) : Except Failure Chord × KeptNumeral :=
  k.answerFor (k.numeral.overrides.apply context.options)

/-- The answers in one context after the other. -/
def answers (k : KeptNumeral) : List Context → List (Except Failure Chord)
  | [] => []
  | context :: contexts => (k.play context).1 :: (k.play context).2.answers contexts

end NumberedMelody.KeptNumeral
