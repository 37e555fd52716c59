import FixedPointNet.Network.Basic
import FixedPointNet.Parameter
import FixedPointNet.Wire

/-!
# Stored networks

A network is stored as its input width and its list of layers. A layer is stored as its two widths,
its weights, its biases and the tag of its activation. Widths take eight bytes, parameters and tags
four. Reading looks at no byte after the last layer; what was read must then pass the checks of
`Network.ofLayersOn`.
-/

namespace FixedPointNet

/-- The stored form of a parameter is its word. -/
def Parameter.wire : Wire Parameter :=
  (Wire.nat 4).via (fun p => p.bits.toNat) fun n => some ⟨.ofNat n⟩

namespace Activation

/-- The number that stands for an activation in a stored network. -/
def tag : Activation → Nat
  | .relu => 0
  | .sigmoid => 1
  | .softmax => 2

/-- The activation that a number stands for. -/
def ofTag? : Nat → Option Activation
  | 0 => some .relu
  | 1 => some .sigmoid
  | 2 => some .softmax
  | _ => none

/-- The stored form of an activation is its tag. -/
def wire : Wire Activation :=
  (Wire.nat 4).via tag ofTag?

end Activation

/-- The stored form of a layer: widths, weights, biases, activation. -/
def Layer.wire : Wire (Layer Parameter) :=
  Wire.via
    (Wire.pair (Wire.nat 8) <| Wire.pair (Wire.nat 8) <|
      Wire.pair (Wire.list Parameter.wire) <| Wire.pair (Wire.list Parameter.wire) Activation.wire)
    (fun l => (l.inputs, l.outputs, l.weights, l.bias, l.activation))
    (fun (inputs, outputs, weights, bias, activation) =>
      some ⟨inputs, outputs, weights, bias, activation⟩)

namespace Network

/-- The stored form of a network: input width, layers. -/
def wire : Wire (Network Parameter) :=
  Wire.via (Wire.pair (Wire.nat 8) (Wire.list Layer.wire))
    (fun n => (n.inputs, n.layers))
    (fun (inputs, layers) => some ⟨inputs, layers⟩)

/-- The bytes of a network. -/
def toBytes (n : Network Parameter) : List UInt8 :=
  wire.write n

/-- The network that a list of bytes begins with. -/
def ofBytesOn (overflow : Overflow) (bytes : List UInt8) : Except Failure (Network Parameter) :=
  match wire.read bytes with
  | some (stored, _) => ofLayersOn overflow stored.inputs stored.layers
  | none => .error (.error .malformedBytes)

/-- The network that a list of bytes begins with, in a build that stops where a product of widths is
    no machine word. -/
def ofBytes (bytes : List UInt8) : Except Failure (Network Parameter) :=
  ofBytesOn .stops bytes

/-- Number of bytes of a network: 16 for its widths, and for each layer 36 and four for every
    parameter. -/
def byteCount (n : Network Parameter) : Nat :=
  16 + n.layers.foldr (fun l total => 36 + 4 * l.parameterCount + total) 0

/-- The size of a stored network in units of 1024 bytes. -/
def sizeKib (n : Network Parameter) : Float :=
  Binary64.ofNat n.byteCount / 1024

end Network

end FixedPointNet
