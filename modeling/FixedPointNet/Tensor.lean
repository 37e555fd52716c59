import FixedPointNet.Failure

/-!
# Integer tensors

A matrix of stored words, row after row. The fixed-point format is not part of the tensor.
-/

namespace FixedPointNet

/-- A matrix of 64-bit words. -/
structure Tensor where
  rows : Nat
  columns : Nat
  data : List Int64
deriving DecidableEq

namespace Tensor

/-- The tensor with zero everywhere. -/
def zeros (rows columns : Nat) : Tensor :=
  ⟨rows, columns, List.replicate (rows * columns) 0⟩

/-- Row `r`; its range must lie inside the data. -/
def row (t : Tensor) (r : Nat) : Except Fault (List Int64) :=
  if (r + 1) * t.columns ≤ t.data.length then
    .ok ((t.data.drop (r * t.columns)).take t.columns)
  else
    .error .outOfRange

/-- The tensor with one word replaced, at a position inside the data. -/
def set (t : Tensor) (position : Nat) (word : Int64) : Except Fault Tensor :=
  if position < t.data.length then .ok { t with data := t.data.set position word }
  else .error .outOfRange

end Tensor

end FixedPointNet
