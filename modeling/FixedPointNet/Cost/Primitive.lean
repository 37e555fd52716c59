import FixedPointNet.Binary64

/-!
# Neuron primitives

A primitive is a hardware block that evaluates several neurons over the same features. Its neurons
share one bank of input registers and have private registers on top. The private factor is chosen so
that a primitive with two neurons over one feature costs 0.92 of two single neurons.
-/

namespace FixedPointNet.Primitive

/-- Shared input registers per feature. -/
def sharedPerFeature : Float := 1

/-- Cost per neuron of a primitive with two neurons over one feature, relative to a single
    neuron. -/
def targetRatio : Float := 0.92

/-- Cycles of the pipeline before the adder tree. -/
def pipelineCycles : Nat := 6

/-- Private registers per neuron and squared feature: the solution of
    `(shared + 2 * private) / 2 = target * (shared + private)`. -/
def privateFactor : Float :=
  sharedPerFeature * ((2 * targetRatio - 1) / (2 * (1 - targetRatio)))

/-- Cost per neuron of a primitive. An empty primitive costs infinitely much. -/
def neuronCost (neurons features : Nat) : Float :=
  if neurons = 0 then Binary64.infinity
  else
    let f := Binary64.ofNat features
    let shared := sharedPerFeature * f
    let ownRegisters := privateFactor * f * f
    (shared + Binary64.ofNat neurons * ownRegisters) / Binary64.ofNat neurons

/-- For every size of primitive, its cost per neuron relative to a single neuron, over the given
    numbers of features. -/
def relativeCurves (sizes features : List Nat) : List (List Float) :=
  sizes.map fun size => features.map fun f => neuronCost size f / neuronCost 1 f

/-- Cycles of one evaluation: the pipeline and the depth of the adder tree over the features and the
    bias, at least one. -/
def cycles (features : Nat) : Nat :=
  let depth := Binary64.ceilClamp 0 0xffffffffffffffff (Binary64.ofNat (features + 1)).log2
  pipelineCycles + max depth.toNat 1

end FixedPointNet.Primitive
