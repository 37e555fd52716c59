import FixedPointNet.Layer.Basic

/-!
# Weighted sums

Both engines compute a layer's sums in the same way. They keep one running sum per output and go
through the inputs; an input that counts as zero is passed over, and any other adds its product with
its row of weights to all sums. `Layer.sums` is this loop for any kind of number.
-/

namespace FixedPointNet.Layer

variable {α β ξ : Type}

/-- Adds the products of one input with its row of weights to the running sums. -/
def addInput (width : Nat) (isZero : ξ → Bool) (addProduct : β → ξ → α → β)
    (sums : List β) (input : ξ × List α) : Except Fault (List β) :=
  if isZero input.1 then .ok sums
  else if input.2.length < width then .error .outOfRange
  else .ok (sums.zipWith (fun sum w => addProduct sum input.1 w) input.2)

/-- One sum per output, over all inputs in order, from the given initial sums. -/
def sums (l : Layer α) (isZero : ξ → Bool) (addProduct : β → ξ → α → β) (initial : List β)
    (xs : List ξ) : Except Fault (List β) :=
  (xs.zip l.rows).foldlM (addInput l.outputs isZero addProduct) initial

end FixedPointNet.Layer
