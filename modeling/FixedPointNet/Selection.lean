import FixedPointNet.Binary64
import FixedPointNet.Failure

/-!
# Selecting a candidate

Of all candidates whose accuracy is within the tolerance of the best one, the selection takes the
one with the fewest registers, the earliest of equal ones. An accuracy that is not a number never
qualifies.
-/

namespace FixedPointNet

/-- What the selection looks at in a candidate. -/
structure Point where
  accuracy : Float
  registers : Nat

/-- The selected candidate. -/
structure Selection where
  /-- Its position. -/
  index : Nat
  /-- The greatest accuracy of all candidates. -/
  bestAccuracy : Float
  /-- The best accuracy less the tolerance. -/
  threshold : Float

namespace Selection

/-- Slack on the threshold, so that accuracies that are exact shares are not lost to rounding. -/
def slack : Float := 1e-12

/-- Whether a point reaches the threshold. -/
def qualifies (threshold : Float) (p : Point) : Bool :=
  !(p.accuracy + slack < threshold : Bool) && !p.accuracy.isNaN

/-- The greatest accuracy that is a number. -/
def greatestAccuracy (points : List Point) : Float :=
  points.foldl (fun best p => Binary64.maxNumber best p.accuracy) Binary64.negInfinity

/-- The position of the qualifying point with the fewest registers among the remaining points and
    the one chosen so far, the earliest of equal ones. -/
def cheapest (threshold : Float) (chosen : Option (Nat × Nat)) :
    (position : Nat) → List Point → Option Nat
  | _, [] => chosen.map Prod.fst
  | position, p :: rest =>
      let better := match chosen with
        | some (_, registers) => decide (p.registers < registers)
        | none => true
      if qualifies threshold p && better then
        cheapest threshold (some (position, p.registers)) (position + 1) rest
      else
        cheapest threshold chosen (position + 1) rest

/-- Selects among points. -/
def ofPoints (points : List Point) (tolerance : Float) : Except Error Selection :=
  if points.isEmpty then .error .emptySweep
  else
    let best := greatestAccuracy points
    let threshold := best - tolerance
    match cheapest threshold none 0 points with
    | some index => .ok ⟨index, best, threshold⟩
    | none => .error (.noQualifyingCandidate best threshold)

end Selection

end FixedPointNet
