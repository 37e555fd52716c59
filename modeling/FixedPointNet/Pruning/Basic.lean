import FixedPointNet.Network.Basic
import FixedPointNet.Pruning.Ranking

/-!
# Pruning a network

Pruning removes the least important neurons of every hidden layer. It goes through the layers in
order and carries the neurons that the layer before has kept: a layer is first restricted to those
inputs, its neurons are ranked on the weights that remain, and the ones it keeps are carried on. The
head loses inputs but no outputs.
-/

namespace FixedPointNet.Network

/-- The first hidden layer that a removal would leave without neurons, as an error. -/
def checkRemovals : (index : Nat) → List (Layer Parameter) → List Nat → Except Error Unit
  | index, l :: hidden, remove :: counts =>
      if l.outputs ≤ remove then .error (.invalidRemoval index remove l.outputs)
      else checkRemovals (index + 1) hidden counts
  | _, _, _ => .ok ()

/-- The layers without the least important neurons of the hidden ones, restricted to the kept
    inputs. -/
def pruneLayers (kept : List Nat) :
    List (Layer Parameter) → List Nat → Except Fault (List (Layer Parameter))
  | l :: layers, remove :: counts => do
      let restricted ← l.restrictInputs kept
      let (pruned, kept) ← restricted.removeLeast remove
      return pruned :: (← pruneLayers kept layers counts)
  | head :: layers, [] => do
      return (← head.restrictInputs kept) :: layers
  | [], _ => .ok []

/-- The network without the given number of neurons in each hidden layer. There must be one count
    per hidden layer, below its width. -/
def pruneOn (overflow : Overflow) (n : Network Parameter) (counts : List Nat) :
    Except Failure (Network Parameter) := do
  if n.layers.length < 2 then throw (.error (.tooFewLayers n.layers.length))
  if counts.length ≠ n.hidden.length then
    throw (.error (.hiddenLayerMismatch n.hidden.length counts.length))
  checkRemovals 0 n.hidden counts
  let layers ← pruneLayers (List.range n.inputs) n.layers counts
  ofLayersOn overflow n.inputs layers

/-- The pruned network, in a build that stops where a product of widths is no machine word. -/
def prune (n : Network Parameter) (counts : List Nat) : Except Failure (Network Parameter) :=
  n.pruneOn .stops counts

/-- The greatest count of neurons that a machine word holds. -/
def maxCount : Int := 0xffffffffffffffff

/-- How many neurons of each hidden layer a ratio removes: `⌊ratio * width⌋`, and none where that is
    negative. -/
def removalCounts (n : Network Parameter) (ratio : Float) : List Nat :=
  n.hidden.map fun l =>
    (Binary64.floorClamp 0 maxCount (ratio * Binary64.ofNat l.outputs)).toNat

/-- The network pruned at a ratio. -/
def pruneRatio (n : Network Parameter) (ratio : Float) : Except Failure (Network Parameter) :=
  n.prune (n.removalCounts ratio)

end FixedPointNet.Network
