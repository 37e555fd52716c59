import FixedPointNet.Network.Basic
import FixedPointNet.Parameter

/-!
# The floating engine

The reference evaluation of a network in single precision. Every product and every sum is rounded on
its own, in the order of the inputs, starting from the bias; an input that is zero contributes
nothing. The sums of a layer are kept in vector registers of eight numbers, as far as they fill
them.
-/

namespace FixedPointNet

/-- Applies an activation to the sums of a layer. In the normalized head the largest sum is
    subtracted before the exponentials are taken. -/
def Activation.applyFloat : Activation → List Float32 → List Float32
  | .relu, sums => sums.map fun x => if 0 < x then x else 0
  | .sigmoid, sums => sums.map fun x => 1 / (1 + (-x).exp)
  | .softmax, sums =>
      let largest := sums.foldl Binary32.maxNumber Binary32.negInfinity
      let terms := sums.map fun x => (x - largest).exp
      let total := terms.foldl (· + ·) 0
      if 0 < total then terms.map (· / total) else terms

/-- A vector register: eight numbers that one instruction works on. -/
abbrev Register := Vector Float32 8

namespace Register

/-- The register with the first eight numbers of a list. -/
def load (xs : List Float32) : Register :=
  .ofFn fun lane => xs.getD lane 0

/-- The register with the same number in every lane. -/
def splat (x : Float32) : Register :=
  .replicate 8 x

/-- `sums + x * weights` in every lane. The product is rounded before it is added. -/
def addProducts (sums : Register) (x : Float32) (weights : Register) : Register :=
  sums.zipWith (· + ·) ((splat x).zipWith (· * ·) weights)

end Register

namespace Layer

/-- Adds the products of an input with a row of weights to the running sums: first in the given
    number of full registers, then the rest one by one. -/
def addRow (x : Float32) : (registers : Nat) → (sums weights : List Float32) → List Float32
  | 0, sums, weights => sums.zipWith (fun sum w => sum + x * w) weights
  | registers + 1, sums, weights =>
      ((Register.load sums).addProducts x (Register.load weights)).toList ++
        addRow x registers (sums.drop 8) (weights.drop 8)

/-- One input of a sample and its row of weights. An input that is zero is passed over. -/
def addFloatInput (width : Nat) (sums : List Float32) (input : Float32 × List Parameter) :
    Except Fault (List Float32) :=
  if input.1 == 0 then .ok sums
  else if input.2.length < width then .error .outOfRange
  else .ok (addRow input.1 (width / 8) sums (input.2.map Parameter.value))

/-- The sums `x · W + b` of one sample. -/
def affine (l : Layer Parameter) (xs : List Float32) : Except Fault (List Float32) :=
  if xs.length ≠ l.inputs ∨ l.bias.length ≠ l.outputs then .error .lengthMismatch
  else (xs.zip l.rows).foldlM (addFloatInput l.outputs) (l.bias.map Parameter.value)

/-- One sample through the layer. -/
def forward (l : Layer Parameter) (xs : List Float32) : Except Fault (List Float32) := do
  return l.activation.applyFloat (← l.affine xs)

end Layer

namespace Network

/-- One sample through all layers. -/
def forward (n : Network Parameter) (xs : List Float32) : Except Fault (List Float32) :=
  n.layers.foldlM (fun values l => l.forward values) xs

/-- A batch of samples, row after row; the number of features must be a multiple of the input
    width. -/
def forwardBatch (n : Network Parameter) (features : List Float32) :
    Except Failure (List Float32) := do
  if n.inputs = 0 then throw (.fault .zeroWidth)
  let samples := features.length / n.inputs
  if features.length % n.inputs ≠ 0 then
    throw (.error (.shapeMismatch [samples * n.inputs] [features.length]))
  let rows ← ((pieces n.inputs samples features).mapM n.forward : Except Fault _)
  return rows.flatten

end Network

end FixedPointNet
