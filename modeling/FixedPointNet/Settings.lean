import FixedPointNet.Binary64
import FixedPointNet.Codec

/-!
# Settings of a sweep

The settings hold the fixed-point format, the accuracy that may be lost, and the grid of prune
ratios. A grid runs from its start in equal steps and includes its stop if that lies on it. Each
ratio is computed from its index, not from the ratio before, and is snapped to the nearest multiple
of 1e-12.
-/

namespace FixedPointNet

/-- The settings of a sweep. -/
structure Settings where
  /-- Fractional bits of the fixed-point format. -/
  fractionBits : Nat
  /-- Accuracy that a candidate may lose against the best one. -/
  tolerance : Float
  /-- First ratio of the grid. -/
  pruneStart : Float
  /-- Last ratio of the grid. -/
  pruneStop : Float
  /-- Distance of two ratios. -/
  pruneStep : Float
  /-- The points of the grid may be measured at the same time. -/
  parallel : Bool

namespace Settings

/-- The greatest number of fractional bits that a sweep accepts. -/
def maxFractionBits : Nat := 30

/-- Ratios from 0 to 0.5 in steps of 0.02, with the default format and a tolerance of 0.01. -/
def default : Settings where
  fractionBits := Codec.defaultFractionBits
  tolerance := 0.01
  pruneStart := 0
  pruneStop := 0.5
  pruneStep := 0.02
  parallel := true

instance : Inhabited Settings := ⟨default⟩

/-- Whether a number lies in `[0, 1)`. -/
def isShare (x : Float) : Bool :=
  0 ≤ x && x < 1

/-- The first setting that is out of range, as an error. -/
def check (s : Settings) : Except SettingsError Unit :=
  if s.fractionBits = 0 ∨ maxFractionBits < s.fractionBits then
    .error (.fractionBits s.fractionBits)
  else if !isShare s.tolerance then
    .error (.tolerance s.tolerance)
  else if !(0 < s.pruneStep : Bool) then
    .error (.pruneStep s.pruneStep)
  else if !isShare s.pruneStart || !isShare s.pruneStop || s.pruneStop < s.pruneStart then
    .error (.pruneGrid s.pruneStart s.pruneStop)
  else
    .ok ()

/-- Slack on the number of steps, so that a stop that lies on the grid is not lost to rounding. -/
def stepSlack : Float := 1e-9

/-- Ratios are snapped to multiples of the inverse of this number. -/
def snapScale : Float := 1e12

/-- A ratio without the noise of its computation: the nearest multiple of 1e-12. -/
def snap (ratio : Float) : Float :=
  Binary64.roundHalfAway (ratio * snapScale) / snapScale

/-- Number of whole steps from the start to the stop. -/
def stepCount (s : Settings) : Nat :=
  let span := (s.pruneStop - s.pruneStart) / s.pruneStep
  (Binary64.floorClamp 0 0xffffffffffffffff (span + stepSlack)).toNat

/-- The ratio at a position of the grid. -/
def ratioAt (s : Settings) (k : Nat) : Float :=
  snap (s.pruneStart + Binary64.ofNat k * s.pruneStep)

/-- The grid of prune ratios, ascending. It is empty if the step is not positive or the stop lies
    before the start. -/
def ratios (s : Settings) : List Float :=
  if s.pruneStep ≤ 0 ∨ s.pruneStop < s.pruneStart then []
  else (List.range (s.stepCount + 1)).map s.ratioAt

end Settings

end FixedPointNet
