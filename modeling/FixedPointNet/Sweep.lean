import FixedPointNet.Cost.Estimate
import FixedPointNet.Evaluator
import FixedPointNet.Network.Bytes
import FixedPointNet.Pruning.Basic
import FixedPointNet.Selection
import FixedPointNet.Settings

/-!
# The sweep over prune ratios

A sweep measures one candidate for every ratio of the grid: the network pruned at that ratio, its
accuracy by a reference evaluator and in fixed point, and its hardware cost. Then it selects among
the candidates.

A sweep may have a deadline. It is checked four times at every point: before the point starts and
after each of its three stages. A point overtaken by the deadline is discarded whole and its
remaining stages do not run.
-/

namespace FixedPointNet

/-- A pruned network with its measurements. -/
structure Candidate where
  /-- The ratio it was pruned at. -/
  ratio : Float
  /-- Neurons removed from each hidden layer. -/
  removed : List Nat
  /-- Accuracy by the reference evaluator. -/
  accuracy : Float
  /-- Accuracy in fixed point. -/
  fixedPointAccuracy : Float
  /-- Hardware units. -/
  cost : Cost
  /-- The pruned network. -/
  network : Network Parameter

/-- What the selection looks at in a candidate. -/
def Candidate.point (c : Candidate) : Point :=
  ⟨c.accuracy, c.cost.registers⟩

/-- The moments at which the deadline of a point is checked. -/
inductive Checkpoint where
  | beforePoint
  | after (stage : Stage)
deriving DecidableEq

/-- Whether the deadline has passed at a moment of a point, by the position of the point in the
    grid. -/
abbrev Clock := Nat → Checkpoint → Bool

/-- A clock whose deadline never passes. -/
def Clock.unlimited : Clock := fun _ _ => false

/-- A sweep: validated settings, a deadline, and the reference evaluator, which may depend on the
    position of the point. -/
structure Sweep where
  settings : Settings
  codec : Codec
  reference : Nat → Evaluator
  clock : Clock

/-- All measured candidates and the selected one. -/
structure SweepResult where
  /-- The candidates in the order of the grid. -/
  candidates : List Candidate
  selection : Selection
  /-- The selected candidate. -/
  best : Candidate
  /-- Whether the deadline has discarded a point. -/
  truncated : Bool

namespace Sweep

/-- A sweep with the given settings. The settings must be in range, which also bounds the fractional
    bits of its codec. -/
def ofSettings (settings : Settings) (reference : Nat → Evaluator) (clock : Clock) :
    Except Failure Sweep := do
  (settings.check.mapError .settings : Except Error Unit)
  let codec ← Codec.ofFractionBits settings.fractionBits
  return ⟨settings, codec, reference, clock⟩

/-- Puts the measurements of a point together. -/
def assemble (ratio : Float) (removed : List Nat) (pruned : Network Parameter)
    (accuracy fixedPointAccuracy : Float) : Logged Candidate := do
  let cost := pruned.cost
  Logged.report (.measured ratio pruned.widths accuracy fixedPointAccuracy cost.registers)
  return ⟨ratio, removed, accuracy, fixedPointAccuracy, cost, pruned⟩

/-- The candidate for one ratio, whatever the deadline. -/
def evaluateRatio (s : Sweep) (n : Network Parameter) (data : Dataset) (ratio : Float) :
    Logged Candidate := do
  let removed := n.removalCounts ratio
  let pruned ← n.prune removed
  let accuracy ← s.reference 0 pruned data
  let fixedPointAccuracy ← Evaluator.fixedPoint s.codec pruned data
  assemble ratio removed pruned accuracy fixedPointAccuracy

/-- Runs the rest of a point unless its deadline has passed. -/
def unlessLate (late : Bool) (rest : Logged (Option Candidate)) : Logged (Option Candidate) :=
  if late then pure none else rest

/-- The candidate for the ratio at a position of the grid, or nothing if the deadline overtakes
    it. -/
def evaluatePoint (s : Sweep) (n : Network Parameter) (data : Dataset) (position : Nat)
    (ratio : Float) : Logged (Option Candidate) :=
  unlessLate (s.clock position .beforePoint) do
    Logged.report (.stageStarted position .pruning)
    let removed := n.removalCounts ratio
    let pruned ← n.prune removed
    unlessLate (s.clock position (.after .pruning)) do
      Logged.report (.stageStarted position .reference)
      let accuracy ← s.reference position pruned data
      unlessLate (s.clock position (.after .reference)) do
        Logged.report (.stageStarted position .fixedPoint)
        let fixedPointAccuracy ← Evaluator.fixedPoint s.codec pruned data
        if s.clock position (.after .fixedPoint) then
          Logged.report (.finishedLate ratio)
          return none
        else
          return some (← assemble ratio removed pruned accuracy fixedPointAccuracy)

/-- The outcomes of the points of a grid, from the given position on. -/
def evaluateGrid (s : Sweep) (n : Network Parameter) (data : Dataset) :
    (position : Nat) → List Float → Logged (List (Option Candidate))
  | _, [] => pure []
  | position, ratio :: rest => do
      let outcome ← s.evaluatePoint n data position ratio
      let outcomes ← s.evaluateGrid n data (position + 1) rest
      return outcome :: outcomes

/-- Measures every point of the grid and selects the best candidate. The network must have a hidden
    layer and as many inputs as the samples have features. -/
def run (s : Sweep) (n : Network Parameter) (data : Dataset) : Logged SweepResult := do
  if n.layers.length < 2 then Logged.fail (.error (.tooFewLayers n.layers.length))
  (Evaluator.checkWidth n data : Except Failure Unit)
  let ratios := s.settings.ratios
  Logged.report (.sweepStarted ratios.length n.widths s.settings.fractionBits)
  let outcomes ← s.evaluateGrid n data 0 ratios
  let candidates := outcomes.filterMap id
  let truncated := decide (candidates.length < outcomes.length)
  if truncated then
    Logged.report (.truncated (outcomes.length - candidates.length) outcomes.length)
  let selection ←
    (Selection.ofPoints (candidates.map Candidate.point) s.settings.tolerance : Except Failure _)
  match candidates[selection.index]? with
  | some best =>
      Logged.report
        (.selected best.ratio best.accuracy selection.threshold best.cost.registers)
      return ⟨candidates, selection, best, truncated⟩
  | none => Logged.fail (.fault .outOfRange)

end Sweep

end FixedPointNet
