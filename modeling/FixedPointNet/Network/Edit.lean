import FixedPointNet.Network.Bytes
import FixedPointNet.Network.Random
import FixedPointNet.Pruning.Basic

/-!
# Editing a network

A session holds one current network. An edit builds, draws, loads or prunes a network or changes its
layers; when it succeeds its result becomes the current network, and when it fails the current
network stays as it was. Sessions run in either build and with any generator.
-/

namespace FixedPointNet.Network

/-- A change of the current network. -/
inductive Edit where
  /-- A network of the given layers. -/
  | build (inputs : Nat) (layers : List (Layer Parameter))
  /-- A network drawn from a seed. -/
  | draw (widths : List Nat) (seed : UInt64)
  /-- The network that a list of bytes begins with. -/
  | load (bytes : List UInt8)
  /-- The current network with neurons removed from each hidden layer. -/
  | prune (counts : List Nat)
  /-- The current network pruned at a ratio. -/
  | pruneRatio (ratio : Float)
  /-- The current network with layers dropped at the end and others added. -/
  | relayer (dropped : Nat) (added : List (Layer Parameter))

variable (overflow : Overflow) (generator : Generator)

/-- The network that an edit makes of the current one. -/
def Edit.apply (current : Network Parameter) : Edit → Except Failure (Network Parameter)
  | .build inputs layers => ofLayersOn overflow inputs layers
  | .draw widths seed => random overflow generator widths seed
  | .load bytes => ofBytesOn overflow bytes
  | .prune counts => current.pruneOn overflow counts
  | .pruneRatio ratio => current.pruneOn overflow (current.removalCounts ratio)
  | .relayer dropped added => current.relayer overflow dropped added

/-- The current network after an attempted edit. -/
def edit (current : Network Parameter) (e : Edit) : Network Parameter :=
  match e.apply overflow generator current with
  | .ok next => next
  | .error _ => current

/-- The current network after a sequence of attempted edits. -/
def edits (current : Network Parameter) (es : List Edit) : Network Parameter :=
  es.foldl (edit overflow generator) current

end FixedPointNet.Network
