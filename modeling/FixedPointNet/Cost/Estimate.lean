import FixedPointNet.Network.Basic

/-!
# Hardware cost

The units that a fully unrolled network takes. A layer with `i` inputs and `o` outputs takes `i * o`
multipliers, `i * o + o` adders and `i * o + o` registers; the network takes one more buffer of
registers as wide as its widest layer output.
-/

namespace FixedPointNet

/-- Numbers of hardware units. -/
structure Cost where
  multipliers : Nat
  adders : Nat
  registers : Nat
deriving DecidableEq

namespace Cost

/-- No units. -/
def zero : Cost := ⟨0, 0, 0⟩

/-- All units together. -/
def total (c : Cost) : Nat :=
  c.multipliers + c.adders + c.registers

instance : Add Cost where
  add a b := ⟨a.multipliers + b.multipliers, a.adders + b.adders, a.registers + b.registers⟩

/-- The units of one layer, without the shared buffer. -/
def ofLayer (inputs outputs : Nat) : Cost :=
  ⟨inputs * outputs, inputs * outputs + outputs, inputs * outputs + outputs⟩

/-- The units of the layers between consecutive widths, without the shared buffer. -/
def ofLayers : List Nat → Cost
  | inputs :: outputs :: rest => ofLayer inputs outputs + ofLayers (outputs :: rest)
  | _ => zero

/-- The units of a network with the given widths, the input first. -/
def ofWidths (widths : List Nat) : Cost :=
  let layers := ofLayers widths
  { layers with registers := layers.registers + widths.tail.foldl max 0 }

end Cost

/-- The units of a network. -/
def Network.cost {α : Type} (n : Network α) : Cost :=
  .ofWidths n.widths

end FixedPointNet
