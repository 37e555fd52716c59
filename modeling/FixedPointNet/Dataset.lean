import FixedPointNet.Failure

/-!
# Labelled samples

A dataset is a matrix of features, one row per sample, with one label per sample. It has at least
one sample.
-/

namespace FixedPointNet

/-- Samples with their labels. -/
structure Dataset where
  /-- The features, row after row. -/
  features : List Float32
  /-- One label per sample. -/
  labels : List Nat
  /-- Number of features of a sample. -/
  width : Nat
deriving DecidableEq

/-- The dataset of the given rows and labels. The rows must be complete, and there must be one label
    for each. -/
def Dataset.ofRows (features : List Float32) (labels : List Nat) (width : Nat) :
    Except Error Dataset :=
  if width = 0 ∨ features.isEmpty then
    .error .emptyDataset
  else if features.length % width ≠ 0 then
    .error (.shapeMismatch [features.length / width, width] [features.length])
  else if labels.length ≠ features.length / width then
    .error (.labelCountMismatch labels.length (features.length / width))
  else
    .ok ⟨features, labels, width⟩

end FixedPointNet
