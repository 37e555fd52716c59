import FixedPointNet.Generator
import FixedPointNet.Network.Basic

/-!
# Random networks

A network drawn from a seed. The weights of a layer are uniform between plus and minus `√(6 /
(inputs + outputs))`, its biases between plus and minus a tenth. They are drawn in order: layer
after layer, weights before biases.
-/

namespace FixedPointNet.Network

/-- The bound of the weights of a layer with the given number of inputs and outputs together. -/
def weightLimit (units : Nat) : Float32 :=
  (6 / Binary32.ofNat (max units 1)).sqrt

variable (overflow : Overflow) (generator : Generator)

/-- Layers of the given widths after a first width, drawn one after the other. -/
def randomLayers (inputs : Nat) :
    List Nat → generator.State → Except Failure (List (Layer Parameter))
  | [], _ => .ok []
  | outputs :: widths, state => do
      let limit := weightLimit (← overflow.narrow (inputs + outputs))
      let count ← overflow.narrow (inputs * outputs)
      let (weights, state) := generator.parameters (-limit) limit count state
      let (bias, state) := generator.parameters (-0.1) 0.1 outputs state
      let l ← Layer.ofParts overflow inputs outputs weights bias
      let rest ← randomLayers outputs widths state
      return l :: rest

/-- A network with the given widths, the input first, drawn from a seed. There must be at least two
    widths, and none may be zero. -/
def random (widths : List Nat) (seed : UInt64) : Except Failure (Network Parameter) :=
  match widths with
  | inputs :: outputs :: rest => do
      let layers ← randomLayers overflow generator inputs (outputs :: rest) (generator.start seed)
      ofLayersOn overflow inputs layers
  | _ => .error (.error (.tooFewLayers 0))

end FixedPointNet.Network
