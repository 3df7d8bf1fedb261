/-
  NumberedMelody/Rhythm/Euclidean.lean
  ====================================
  **Euclidean rhythms.**  So many pulses as evenly as possible over so many
  steps: three over eight is `x..x..x.`.  Step `i` carries an onset when the
  running remainder of the pulses drops there.
-/

namespace NumberedMelody.Rhythm

/-- The remainder of `pulses · (i - 1)` modulo the number of steps. -/
def remainderBefore (pulses length i : Nat) : Int := (pulses * ((i : Int) - 1)) % length

/-- The remainder drops after step `i`, around the end of the rhythm too. -/
def isOnset (pulses length i : Nat) : Bool :=
  remainderBefore pulses length ((i + 1) % length) < remainderBefore pulses length i

/-- The onsets of a rhythm, rotated to the right.  With at least as many
    pulses as steps every step is one. -/
def euclidean (pulses length : Nat) (rotate : Int) : List Bool :=
  if length ≤ pulses then List.replicate length true
  else (List.range length).map fun (i : Nat) => isOnset pulses length (((i : Int) - rotate) % length).toNat

end NumberedMelody.Rhythm
