import FixedPointNet.Classification
import FixedPointNet.Dataset
import FixedPointNet.FloatEngine
import FixedPointNet.IntegerEngine

/-!
# Evaluators

An evaluator measures the accuracy of a network on a dataset. One runs the floating engine, the
other the integer engine; both decide classes by the same rule.
-/

namespace FixedPointNet

/-- A measure of accuracy. -/
abbrev Evaluator := Network Parameter → Dataset → Logged Float

namespace Evaluator

/-- The samples of a dataset must have as many features as the network has inputs. -/
def checkWidth (n : Network Parameter) (data : Dataset) : Except Error Unit :=
  if n.inputs ≠ data.width then .error (.shapeMismatch [n.inputs] [data.width]) else .ok ()

/-- Accuracy in single precision. -/
def floating : Evaluator := fun n data => do
  (checkWidth n data : Except Failure Unit)
  let scores ← n.forwardBatch data.features
  let classes := Classification.classes n.outputs (scores.map Binary32.widen)
  return Classification.accuracy classes data.labels

/-- Accuracy in fixed point. -/
def fixedPoint (codec : Codec) : Evaluator := fun n data => do
  (checkWidth n data : Except Failure Unit)
  let model ← FixedPointModel.ofNetwork codec n
  let scores ← model.predict data.features
  return Classification.accuracy (Classification.classes model.outputs scores) data.labels

end Evaluator

end FixedPointNet
