import FixedPointNet.Layer.Basic

/-!
# Restricting a layer

Removing a neuron drops its column in its own layer, with its bias, and its row in the next layer.
Both are restrictions of a weight matrix to a list of kept indices, in the order of that list. An
index past the end is a fault.
-/

namespace FixedPointNet.Layer

variable {α : Type}

/-- The entries of a list at the given positions. -/
def pick (xs : List α) (positions : List Nat) : Except Fault (List α) :=
  positions.mapM fun i =>
    match xs[i]? with
    | some x => .ok x
    | none => .error .outOfRange

/-- The layer with only the given inputs. -/
def restrictInputs (l : Layer α) (kept : List Nat) : Except Fault (Layer α) := do
  let rows ← kept.mapM l.row
  return { l with inputs := kept.length, weights := rows.flatten }

/-- The layer with only the given outputs and their biases. -/
def restrictOutputs (l : Layer α) (kept : List Nat) : Except Fault (Layer α) := do
  let rows ← (List.range l.inputs).mapM l.row
  let rows ← rows.mapM fun row => pick row kept
  let bias ← pick l.bias kept
  return { l with outputs := kept.length, weights := rows.flatten, bias := bias }

end FixedPointNet.Layer
