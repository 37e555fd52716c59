import FixedPointNet.Decimal.Places
import FixedPointNet.Sweep

/-!
# Summaries of a sweep

A `Summary` describes the selected candidate layer by layer and renders as a block of text.
`Columns` hold the measurements of all candidates as parallel lists, one entry per candidate.
-/

namespace FixedPointNet

/-- One line of the breakdown by layers. -/
structure LayerSummary where
  index : Nat
  activation : Activation
  inputs : Nat
  outputs : Nat
  weights : Nat
  biases : Nat
deriving DecidableEq

/-- The summary of a candidate. -/
structure Summary where
  ratio : Float
  accuracy : Float
  fixedPointAccuracy : Float
  registers : Nat
  layers : List LayerSummary

/-- The summary of a layer at a position. -/
def LayerSummary.ofLayer (index : Nat) (l : Layer Parameter) : LayerSummary :=
  ⟨index, l.activation, l.inputs, l.outputs, l.weightCount, l.bias.length⟩

/-- The line of a layer. -/
def LayerSummary.line (l : LayerSummary) : String :=
  s!"Layer {l.index} (Dense, {l.activation.name}): Input Neurons = {l.inputs}, " ++
    s!"Output Neurons = {l.outputs}, Weights = {l.weights}, Biases = {l.biases}"

namespace Summary

/-- The summary of a candidate. -/
def ofCandidate (c : Candidate) : Summary where
  ratio := c.ratio
  accuracy := c.accuracy
  fixedPointAccuracy := c.fixedPointAccuracy
  registers := c.cost.registers
  layers := c.network.layers.mapIdx LayerSummary.ofLayer

/-- Places of the prune percentage. -/
def percentagePlaces : Nat := 2

/-- Places of an accuracy. -/
def accuracyPlaces : Nat := 4

/-- The lines of the text. -/
def lines (s : Summary) : List String :=
  [ "Best Model (Greedy Selection):",
    s!"  Prune Percentage: {Decimal.fixed percentagePlaces (s.ratio * 100)}%",
    s!"  Accuracy: {Decimal.fixed accuracyPlaces s.accuracy}",
    s!"  Fixed-Point Accuracy: {Decimal.fixed accuracyPlaces s.fixedPointAccuracy}",
    s!"  Total Registers: {s.registers}",
    "",
    "Layer-wise details for the best model:" ] ++ s.layers.map LayerSummary.line

/-- The text: every line ends with a line break. -/
def text (s : Summary) : String :=
  String.join (s.lines.map (· ++ "\n"))

end Summary

/-- The measurements of candidates as parallel lists. -/
structure Columns where
  ratios : List Float
  accuracies : List Float
  fixedPointAccuracies : List Float
  sizesKib : List Float
  registers : List Nat
  multipliers : List Nat
  adders : List Nat

/-- The columns of a list of candidates, in its order. -/
def Columns.ofCandidates (cs : List Candidate) : Columns where
  ratios := cs.map Candidate.ratio
  accuracies := cs.map Candidate.accuracy
  fixedPointAccuracies := cs.map Candidate.fixedPointAccuracy
  sizesKib := cs.map fun c => c.network.sizeKib
  registers := cs.map fun c => c.cost.registers
  multipliers := cs.map fun c => c.cost.multipliers
  adders := cs.map fun c => c.cost.adders

end FixedPointNet
