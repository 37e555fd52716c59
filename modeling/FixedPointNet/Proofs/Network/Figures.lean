import FixedPointNet.Proofs.Cost
import FixedPointNet.Proofs.Network.Edits
import FixedPointNet.Proofs.Network.Sizes
import FixedPointNet.Summary
import Mathlib.Order.Bounds.Basic

/-!
# All figures of a network agree

The hardware estimate goes by the widths, the summary of a candidate goes layer by layer, and the
stored form by what is written. On an accepted network they count the same weights and biases.
-/

namespace FixedPointNet

namespace Network

variable {α : Type} {width : Nat}

/-- Number of weights that a network holds. -/
def storedWeights (n : Network α) : Nat :=
  (n.layers.map fun l => l.weights.length).sum

/-- Number of biases that a network holds. -/
def storedBiases (n : Network α) : Nat :=
  (n.layers.map fun l => l.bias.length).sum

theorem Chained.multipliers_ofLayers {layers : List (Layer α)} (chained : Chained width layers) :
    (Cost.ofLayers (width :: layers.map Layer.outputs)).multipliers =
      (layers.map fun l => l.weights.length).sum := by
  induction chained with
  | nil => rfl
  | cons inputs consistent _ ih =>
    simp [Cost.ofLayers, Cost.ofLayer, ih, consistent.weights, inputs]

theorem parameterCount_eq_sum (n : Network α) :
    n.parameterCount = (n.layers.map Layer.parameterCount).sum := by
  rw [parameterCount, List.sum_eq_foldr, List.foldr_map]

theorem byteCount_eq_sum (n : Network Parameter) :
    n.byteCount = 16 + (n.layers.map fun l => 36 + 4 * l.parameterCount).sum := by
  rw [byteCount, List.sum_eq_foldr, List.foldr_map]

theorem Chained.sum_parameterCount {layers : List (Layer α)} (chained : Chained width layers) :
    (layers.map Layer.parameterCount).sum =
      (layers.map fun l => l.weights.length).sum + (layers.map fun l => l.bias.length).sum := by
  induction chained with
  | nil => rfl
  | cons _ consistent _ ih =>
    simp only [List.map_cons, List.sum_cons, ih, Layer.parameterCount, Layer.weightCount,
      consistent.weights, consistent.bias]
    omega

end Network

/-- The running maximum of a list ends at its greatest member. -/
theorem isGreatest_foldl_max {widths : List Nat} (nonempty : widths ≠ []) :
    IsGreatest {w | w ∈ widths} (widths.foldl max 0) := by
  obtain ⟨greatest, at_max⟩ := Option.isSome_iff_exists.mp (List.isSome_max?_iff.mpr nonempty)
  rw [List.foldl_max, at_max, Option.getD_some, Nat.zero_max]
  exact List.max?_eq_some_iff.mp at_max

/-- What a line of a summary says of its layer alone can be read off the layers. -/
theorem Summary.map_layers_ofCandidate {β : Type} {f : LayerSummary → β} {g : Layer Parameter → β}
    (same : ∀ i l, f (.ofLayer i l) = g l) (c : Candidate) :
    (ofCandidate c).layers.map f = c.network.layers.map g := by
  apply List.ext_getElem?
  simp [ofCandidate, Function.comp_def, same]

namespace Network

/-- The figures that are given for a network count the weights and biases it holds. -/
structure FiguresAgree (n : Network Parameter) : Prop where
  /-- A multiplier for every weight. -/
  multipliers : n.cost.multipliers = n.storedWeights
  /-- An adder for every weight and every bias. -/
  adders : n.cost.adders = n.storedWeights + n.storedBiases
  parameters : n.parameterCount = n.storedWeights + n.storedBiases
  /-- A register for every parameter and for every output of the widest layer. -/
  registers : ∃ widest, IsGreatest {width | ∃ l ∈ n.layers, l.outputs = width} widest ∧
    n.cost.registers = n.parameterCount + widest
  summary_weights : ∀ c : Candidate, c.network = n →
    ((Summary.ofCandidate c).layers.map LayerSummary.weights).sum = n.cost.multipliers
  summary_parameters : ∀ c : Candidate, c.network = n →
    ((Summary.ofCandidate c).layers.map fun line => line.weights + line.biases).sum =
      n.cost.adders
  bytes : n.toBytes.length = 16 + (n.layers.map fun l => 36 + 4 * l.parameterCount).sum
  /-- The size by the formula is the size of the stored form. -/
  size : n.sizeKib = Binary64.ofNat n.toBytes.length / 1024

variable {n : Network Parameter}

theorem WellFormed.parameterCount_eq (wellFormed : n.WellFormed) :
    n.parameterCount = n.storedWeights + n.storedBiases := by
  rw [parameterCount_eq_sum, wellFormed.chained.sum_parameterCount, storedWeights, storedBiases]

theorem registers_cost (n : Network α) :
    n.cost.registers = n.cost.adders + (n.layers.map Layer.outputs).foldl max 0 := by
  simp [cost, Cost.ofWidths, widths, Cost.registers_ofLayers]

theorem WellFormed.isGreatest_widest (wellFormed : n.WellFormed) :
    IsGreatest {width | ∃ l ∈ n.layers, l.outputs = width}
      ((n.layers.map Layer.outputs).foldl max 0) := by
  have nonempty : n.layers.map Layer.outputs ≠ [] := by simpa using wellFormed.layers_ne_nil
  simpa using isGreatest_foldl_max nonempty

theorem WellFormed.sum_summary_weights (wellFormed : n.WellFormed) {c : Candidate}
    (measured : c.network = n) :
    ((Summary.ofCandidate c).layers.map LayerSummary.weights).sum = n.storedWeights := by
  have counts : ∀ l ∈ n.layers, l.weightCount = l.weights.length := fun l member =>
    (wellFormed.chained.consistent l member).weights.symm
  rw [Summary.map_layers_ofCandidate (g := Layer.weightCount) (fun _ _ => rfl), measured,
    List.map_congr_left counts, storedWeights]

theorem WellFormed.sum_summary_parameters (wellFormed : n.WellFormed) {c : Candidate}
    (measured : c.network = n) :
    ((Summary.ofCandidate c).layers.map fun line => line.weights + line.biases).sum =
      n.parameterCount := by
  have counts : ∀ l ∈ n.layers, l.weightCount + l.bias.length = l.parameterCount := by
    intro l member
    rw [(wellFormed.chained.consistent l member).bias, Layer.parameterCount]
  rw [Summary.map_layers_ofCandidate (g := fun l => l.weightCount + l.bias.length)
    (fun _ _ => rfl), measured, List.map_congr_left counts, parameterCount_eq_sum]

theorem WellFormed.figuresAgree (wellFormed : n.WellFormed) : n.FiguresAgree where
  multipliers := wellFormed.chained.multipliers_ofLayers
  adders := by rw [wellFormed.adders_cost, wellFormed.parameterCount_eq]
  parameters := wellFormed.parameterCount_eq
  registers := ⟨_, wellFormed.isGreatest_widest, by rw [registers_cost, wellFormed.adders_cost]⟩
  summary_weights c measured := by
    rw [wellFormed.sum_summary_weights measured]
    exact wellFormed.chained.multipliers_ofLayers.symm
  summary_parameters c measured := by
    rw [wellFormed.sum_summary_parameters measured, wellFormed.adders_cost]
  bytes := by rw [wellFormed.length_toBytes, byteCount_eq_sum]
  size := by rw [wellFormed.length_toBytes, sizeKib]

/-- The figures of an accepted network agree, whatever its depth and its widths. -/
theorem figuresAgree_of_accepted {given : Nat} {literals : List (Layer Parameter)}
    (accepted : ofLayers given literals = .ok n) : n.FiguresAgree :=
  (wellFormed_of_ofLayers_eq_ok accepted).figuresAgree

theorem figuresAgree_of_accepted_small :
    ofLayers small.inputs small.layers = .ok small ∧ small.cost.multipliers = 9 ∧
      small.cost.adders = 13 ∧ small.toBytes.length = 140 ∧ small.FiguresAgree := by
  have accepted : ofLayers small.inputs small.layers = .ok small := rfl
  have agree := figuresAgree_of_accepted accepted
  exact ⟨accepted, agree.multipliers, agree.adders, agree.bytes, agree⟩

end Network

end FixedPointNet
