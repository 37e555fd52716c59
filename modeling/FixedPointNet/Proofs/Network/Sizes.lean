import FixedPointNet.Cost.Estimate
import FixedPointNet.Proofs.Network.Bytes

/-!
# Parameters, units and bytes

The sizes of a network in which the layers chain follow from its number of parameters: it takes an
adder for each of them, and four bytes of its stored form besides a front of a fixed size for the
network and for each layer.
-/

namespace FixedPointNet

variable {α : Type}

theorem Layer.Consistent.storedLength_eq {l : Layer Parameter} (consistent : l.Consistent) :
    l.storedLength = 36 + 4 * l.parameterCount := by
  rw [Layer.storedLength, consistent.weights, consistent.bias]
  rfl

namespace Network

variable {width : Nat}

/-- Where layers chain there is an adder for every parameter. -/
theorem Chained.adders_ofLayers {layers : List (Layer α)} (chained : Chained width layers) :
    (Cost.ofLayers (width :: layers.map Layer.outputs)).adders =
      layers.foldr (fun l total => l.parameterCount + total) 0 := by
  induction chained with
  | nil => rfl
  | @cons width l rest inputs _ _ ih =>
    have first : (Cost.ofLayer width l.outputs).adders = l.parameterCount := by
      rw [Layer.parameterCount, Layer.weightCount, inputs]
      rfl
    rw [List.foldr_cons, ← ih, ← first]
    rfl

theorem WellFormed.adders_cost {n : Network α} (wellFormed : n.WellFormed) :
    n.cost.adders = n.parameterCount :=
  wellFormed.chained.adders_ofLayers

theorem Chained.length_flatMap_write {layers : List (Layer Parameter)}
    (chained : Chained width layers) :
    (layers.flatMap Layer.wire.write).length =
      layers.foldr (fun l total => 36 + 4 * l.parameterCount + total) 0 := by
  induction chained with
  | nil => rfl
  | cons _ consistent _ ih =>
    rw [List.flatMap_cons, List.length_append, Layer.length_write, consistent.storedLength_eq, ih]
    rfl

/-- A network is stored in as many bytes as are counted for it. -/
theorem WellFormed.length_toBytes {n : Network Parameter} (wellFormed : n.WellFormed) :
    n.toBytes.length = n.byteCount := by
  rw [toBytes, write_eq, List.length_append, length_storedFront,
    wellFormed.chained.length_flatMap_write]
  rfl

theorem byteCount_eq (n : Network Parameter) :
    n.byteCount = 16 + 36 * n.layers.length + 4 * n.parameterCount := by
  rw [byteCount, parameterCount, Nat.add_assoc]
  congr 1
  induction n.layers with
  | nil => rfl
  | cons l layers ih =>
    rw [List.foldr_cons, List.foldr_cons, List.length_cons, ih]
    omega

end Network

end FixedPointNet
