import FixedPointNet.Layer.Restriction
import FixedPointNet.Parameter

/-!
# Ranking neurons

A neuron's importance is the sum of the magnitudes of its incoming weights, added in single
precision in the order of the inputs. Neurons are ranked by ascending importance in the total order
of all floats; equal importances keep the order of the neurons. Removing neurons takes them from the
front of the ranking.
-/

namespace FixedPointNet.Layer

/-- Adds the magnitudes of a row of weights to the running sums. -/
def addMagnitudes (sums : List Float32) (row : List Parameter) : List Float32 :=
  sums.zipWith (fun sum w => sum + w.value.abs) row

/-- The importance of each output neuron. -/
def importance (l : Layer Parameter) : Except Fault (List Float32) := do
  let rows ← (List.range l.inputs).mapM l.row
  return rows.foldl addMagnitudes (List.replicate l.outputs 0)

/-- The positions of a list of importances by ascending importance. -/
def ranking (importances : List Float32) : List Nat :=
  (importances.zipIdx.mergeSort fun a b =>
    Binary32.orderKey a.1 ≤ Binary32.orderKey b.1).map Prod.snd

/-- The same for importances that are given by their stored words. -/
def rankWords (words : List UInt32) : List Nat :=
  (words.zipIdx.mergeSort fun a b =>
    Binary32.wordKey a.1 ≤ Binary32.wordKey b.1).map Prod.snd

/-- The output neurons that are left when the given number of least important ones is removed, in
    ascending order. -/
def survivors (l : Layer Parameter) (remove : Nat) : Except Fault (List Nat) := do
  return ((ranking (← l.importance)).drop remove).mergeSort (· ≤ ·)

/-- The layer without its least important neurons, and the neurons it keeps. -/
def removeLeast (l : Layer Parameter) (remove : Nat) :
    Except Fault (Layer Parameter × List Nat) := do
  let kept ← l.survivors remove
  return (← l.restrictOutputs kept, kept)

end FixedPointNet.Layer
