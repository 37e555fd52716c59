import FixedPointNet.Layer.Basic

/-!
# Networks

A network is a width of input and a list of dense layers, evaluated front to back.
`Network.ofLayersOn` accepts a list of layers whose widths chain and whose lists match their widths,
and gives each layer the activation of its place. Its first argument says what the build does where
a product of widths is no machine word; `Network.ofLayers` stops there. `Network.WellFormed` says
what the networks satisfy that `Network.ofLayers` accepts.
-/

namespace FixedPointNet

/-- A feed-forward network over weights of type `α`. -/
structure Network (α : Type) where
  /-- Number of features of a sample. -/
  inputs : Nat
  /-- The layers in the order of evaluation, the head last. -/
  layers : List (Layer α)
deriving DecidableEq

namespace Network

variable {α β : Type}

/-- Checks that layers follow each other, from the given width on, and match their widths. -/
def checkChain (overflow : Overflow) : Nat → List (Layer α) → Except Failure Unit
  | _, [] => .ok ()
  | width, l :: rest => do
      if l.inputs ≠ width then
        throw (.error (.shapeMismatch [width, l.outputs] [l.inputs, l.outputs]))
      l.checkLengths overflow
      checkChain overflow l.outputs rest

/-- Gives every layer the activation of its place: the last one is the head. -/
def assignActivations : List (Layer α) → List (Layer α)
  | [] => []
  | l :: rest =>
      { l with activation := .forPosition rest.isEmpty l.outputs } :: assignActivations rest

/-- The network of the given layers. The activations that the layers bring are replaced. -/
def ofLayersOn (overflow : Overflow) (inputs : Nat) (layers : List (Layer α)) :
    Except Failure (Network α) := do
  if layers.isEmpty then throw (.error (.tooFewLayers 0))
  checkChain overflow inputs layers
  return ⟨inputs, assignActivations layers⟩

/-- The network of the given layers, in a build that stops where a product of widths is no machine
    word. -/
def ofLayers (inputs : Nat) (layers : List (Layer α)) : Except Failure (Network α) :=
  ofLayersOn .stops inputs layers

/-- Layers follow each other from a width on, and their lists match their widths. -/
inductive Chained : Nat → List (Layer α) → Prop where
  | nil (width : Nat) : Chained width []
  | cons {width : Nat} {l : Layer α} {rest : List (Layer α)} (inputs : l.inputs = width)
      (consistent : l.Consistent) (chained : Chained l.outputs rest) : Chained width (l :: rest)

/-- What holds of every network that `ofLayers` accepts: it has layers, they chain from the input
    width, their weights can be counted in a machine word, and each layer has the activation of its
    place. -/
structure WellFormed (n : Network α) : Prop where
  layers_ne_nil : n.layers ≠ []
  chained : Chained n.inputs n.layers
  countable : ∀ l ∈ n.layers, l.inputs * l.outputs < countLimit
  activations : assignActivations n.layers = n.layers

/-- The network with every weight and bias replaced by its image. -/
def map (f : α → β) (n : Network α) : Network β :=
  ⟨n.inputs, n.layers.map (Layer.map f)⟩

/-- Width of the head. -/
def outputs (n : Network α) : Nat :=
  match n.layers.getLast? with
  | some head => head.outputs
  | none => 0

/-- The layers before the head. -/
def hidden (n : Network α) : List (Layer α) :=
  n.layers.dropLast

/-- All widths: the input, then the outputs of each layer. -/
def widths (n : Network α) : List Nat :=
  n.inputs :: n.layers.map Layer.outputs

/-- Number of weights and biases. -/
def parameterCount (n : Network α) : Nat :=
  n.layers.foldr (fun l total => l.parameterCount + total) 0

/-- The layers as a new network: up to `dropped` are left out at the end and `added` follow. -/
def relayer (overflow : Overflow) (n : Network α) (dropped : Nat) (added : List (Layer α)) :
    Except Failure (Network α) :=
  ofLayersOn overflow n.inputs (n.layers.take (n.layers.length - dropped) ++ added)

end Network

end FixedPointNet
