import FixedPointNet.Overflow

/-!
# Dense layers

A dense layer connects every input to every output. Its weights are a matrix with one row per input
and one column per output, stored row after row: `weights[i * outputs + o]` belongs to input `i` and
output `o`. A forward pass through the layer is `activation (x · W + b)`.

The type of the weights is a parameter of `Layer`: the same structure holds trained parameters and
the words of the integer engine, and `Layer.map` leads from one to the other. A layer may be written
down with lists that do not match its widths; `Layer.Consistent` says that they do, and
`Layer.checkLengths` is the check, as far as the product of the widths is a machine word.
-/

namespace FixedPointNet

/-- What a layer applies to its sums. -/
inductive Activation where
  /-- `max 0 x`. -/
  | relu
  /-- `1 / (1 + exp (-x))`, for a head with one unit. -/
  | sigmoid
  /-- Exponentials divided by their sum, for a head with several units. -/
  | softmax
deriving DecidableEq

namespace Activation

/-- The activation of a layer from its place in a network: hidden layers rectify, a head with one
    unit is logistic, any other head is normalized over its units. -/
def forPosition (isOutput : Bool) (width : Nat) : Activation :=
  if isOutput then (if width = 1 then .sigmoid else .softmax) else .relu

/-- The name of an activation in reports. -/
def name : Activation → String
  | .relu => "relu"
  | .sigmoid => "sigmoid"
  | .softmax => "softmax"

end Activation

/-- A dense layer over weights of type `α`. -/
structure Layer (α : Type) where
  /-- Number of inputs. -/
  inputs : Nat
  /-- Number of outputs. -/
  outputs : Nat
  /-- The weight matrix, row after row. -/
  weights : List α
  /-- One bias per output. -/
  bias : List α
  /-- What is applied to the sums. -/
  activation : Activation
deriving DecidableEq

/-- Cuts a list into `count` consecutive pieces of the given width. Where the list ends early, the
    last pieces are shorter. -/
def pieces {α : Type} (width : Nat) : Nat → List α → List (List α)
  | 0, _ => []
  | count + 1, xs => xs.take width :: pieces width count (xs.drop width)

namespace Layer

variable {α β : Type}

/-- The lists of a layer match its widths. -/
structure Consistent (l : Layer α) : Prop where
  weights : l.weights.length = l.inputs * l.outputs
  bias : l.bias.length = l.outputs

/-- Checks that the lists of a layer match its widths. The product of the widths must be a machine
    word; where it is none, the check goes on with what the build makes of it. -/
def checkLengths (overflow : Overflow) (l : Layer α) : Except Failure Unit := do
  let count ← overflow.narrow (l.inputs * l.outputs)
  if l.weights.length ≠ count then
    throw (.error (.shapeMismatch [count] [l.weights.length]))
  if l.bias.length ≠ l.outputs then
    throw (.error (.shapeMismatch [l.outputs] [l.bias.length]))

/-- A layer from its parts, with the activation of a hidden layer.

    Both widths must be positive and the lists must match them. -/
def ofParts (overflow : Overflow) (inputs outputs : Nat) (weights bias : List α) :
    Except Failure (Layer α) := do
  if inputs = 0 ∨ outputs = 0 then
    throw (.error (.shapeMismatch [1, 1] [inputs, outputs]))
  let l : Layer α := ⟨inputs, outputs, weights, bias, .relu⟩
  l.checkLengths overflow
  return l

/-- The layer with every weight and bias replaced by its image. -/
def map (f : α → β) (l : Layer α) : Layer β :=
  { inputs := l.inputs
    outputs := l.outputs
    weights := l.weights.map f
    bias := l.bias.map f
    activation := l.activation }

/-- Number of weights that the widths call for. -/
def weightCount (l : Layer α) : Nat :=
  l.inputs * l.outputs

/-- Number of weights and biases that the widths call for. -/
def parameterCount (l : Layer α) : Nat :=
  l.weightCount + l.outputs

/-- The weight from input `i` to output `o`. -/
def weight? (l : Layer α) (i o : Nat) : Option α :=
  l.weights[i * l.outputs + o]?

/-- The rows of the weight matrix, one per input. A row is shorter than the layer's width only where
    the weights end early. -/
def rows (l : Layer α) : List (List α) :=
  pieces l.outputs l.inputs l.weights

/-- The weights that leave input `i`. The range must lie inside the stored weights. -/
def row (l : Layer α) (i : Nat) : Except Fault (List α) :=
  if (i + 1) * l.outputs ≤ l.weights.length then
    .ok ((l.weights.drop (i * l.outputs)).take l.outputs)
  else
    .error .outOfRange

/-- The weight from input `i` to output `o`; the position must lie inside the stored weights. -/
def weight (l : Layer α) (i o : Nat) : Except Fault α :=
  match l.weight? i o with
  | some w => .ok w
  | none => .error .outOfRange

end Layer

end FixedPointNet
