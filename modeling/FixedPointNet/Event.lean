import FixedPointNet.Decimal.Places
import FixedPointNet.Failure

/-!
# Events

Operations report what an operator may want to know as events: values that were pinned to the range
of a word, sums that wrapped, the progress of a sweep. An event is kept as its cause;
`Event.line?` holds the wording and the level of its line in the log. The start of a stage is an
event without a line, for those who follow a sweep.
-/

namespace FixedPointNet

/-- How urgent a line of the log is. -/
inductive Level where
  | warn
  | info
  | debug
deriving DecidableEq

/-- The stages that measure one point of a sweep. -/
inductive Stage where
  /-- Building the pruned network. -/
  | pruning
  /-- Measuring accuracy with the reference evaluator. -/
  | reference
  /-- Measuring accuracy in fixed point. -/
  | fixedPoint
deriving DecidableEq

/-- What an operation reports while it runs. -/
inductive Event where
  /-- Values were outside the range of a word and were pinned to its limits. -/
  | saturated (count total fractionBits : Nat)
  /-- A rescaled sum did not fit a word and wrapped. -/
  | wrapped (fractionBits : Nat)
  /-- A sweep begins. -/
  | sweepStarted (points : Nat) (widths : List Nat) (fractionBits : Nat)
  /-- A stage of a point is about to run. -/
  | stageStarted (point : Nat) (stage : Stage)
  /-- A point was measured. -/
  | measured (ratio : Float) (widths : List Nat) (accuracy fixedPointAccuracy : Float)
      (registers : Nat)
  /-- A point finished after the deadline. -/
  | finishedLate (ratio : Float)
  /-- The deadline discarded some of the planned points. -/
  | truncated (discarded planned : Nat)
  /-- A candidate was selected. -/
  | selected (ratio accuracy threshold : Float) (registers : Nat)

/-- The line of the log that an event writes, if it writes one. Ratios have two places and
    accuracies four. -/
def Event.line? : Event → Option (Level × String)
  | .saturated count total bits =>
      some (.warn, s!"{count} of {total} values exceed the Q{bits} range " ++
        "and were pinned to the i64 limits")
  | .wrapped bits =>
      some (.warn, s!"fixed-point accumulator exceeded i64 after >> {bits} bits; values wrapped")
  | .sweepStarted points widths bits =>
      some (.info, s!"sweeping {points} prune ratios over {shapeText widths} " ++
        s!"with Q{bits} fixed point")
  | .stageStarted _ _ => none
  | .measured ratio widths accuracy fixedPointAccuracy registers =>
      some (.debug, s!"ratio {Decimal.fixed 2 ratio}: dims {shapeText widths}, " ++
        s!"acc {Decimal.fixed 4 accuracy}, fixed acc {Decimal.fixed 4 fixedPointAccuracy}, " ++
        s!"registers {registers}")
  | .finishedLate ratio =>
      some (.debug, s!"ratio {Decimal.fixed 2 ratio} finished after the deadline; discarded")
  | .truncated discarded planned =>
      some (.warn, s!"deadline reached: {discarded} of {planned} grid points discarded")
  | .selected ratio accuracy threshold registers =>
      some (.info, s!"selected ratio {Decimal.fixed 2 ratio}: " ++
        s!"accuracy {Decimal.fixed 4 accuracy} " ++
        s!"(threshold {Decimal.fixed 4 threshold}), {registers} registers")

end FixedPointNet
