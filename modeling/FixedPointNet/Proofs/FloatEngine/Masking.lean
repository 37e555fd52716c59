import FixedPointNet.Proofs.FloatEngine.Sums
import FixedPointNet.Proofs.Pruning.Masking

/-!
# Pruned networks in single precision

The floating engine passes over inputs that are zero, so the additions of a pruned network are those
of its parent where every discarded neuron is overwritten with zero: the same ones in the same
order, and with the same rounding. No law of floating-point addition is needed.
-/

namespace FixedPointNet

open Network

theorem Activation.applyFloat_relu_entries (sums : List Float32) (positions : List Nat) :
    Activation.relu.applyFloat (entries sums positions) =
      entries (Activation.relu.applyFloat sums) positions :=
  map_entries _ sums positions

@[simp] theorem Activation.length_applyFloat (activation : Activation) (sums : List Float32) :
    (activation.applyFloat sums).length = sums.length := by
  cases activation with
  | relu => simp [applyFloat]
  | sigmoid => simp [applyFloat]
  | softmax =>
    simp only [applyFloat]
    split <;> simp

theorem Layer.affine_restriction {l : Layer Parameter} (consistent : l.Consistent)
    {rows columns : List Nat} (within : Within l.inputs rows) (increasing : rows.Pairwise (· < ·))
    (below : Within l.outputs columns) {xs : List Float32} (width : xs.length = l.inputs)
    (masked : Masked 0 rows xs) :
    ∃ sums, l.affine xs = .ok sums ∧ sums.length = l.outputs ∧
      (l.restriction rows columns).affine (entries xs rows) = .ok (entries sums columns) := by
  have restricted := consistent.restriction within below
  have narrow : (entries xs rows).length = (l.restriction rows columns).inputs :=
    length_entries (by rwa [width])
  have start : (l.restriction rows columns).bias.map Parameter.value =
      entries (l.bias.map Parameter.value) columns :=
    map_entries _ l.bias columns
  rw [consistent.affine_eq width, restricted.affine_eq narrow, start]
  exact consistent.sums_restriction (· == 0) addProduct (by decide) within increasing below
    (by simp [consistent.bias]) width masked

theorem selective_forward : Selective 0 Layer.forward where
  select := by
    intro l rows columns xs consistent within increasing below activation width masked
    obtain ⟨sums, whole, length, part⟩ :=
      Layer.affine_restriction consistent within increasing below width masked
    have activated : l.activation.applyFloat (entries sums columns) =
        entries (l.activation.applyFloat sums) columns := by
      rcases activation with rectifies | rfl
      · rw [rectifies, Activation.applyFloat_relu_entries]
      · rw [entries_range_of_length length, entries_range_of_length (by simpa using length)]
    refine ⟨l.activation.applyFloat sums, ?_, by simpa using length, ?_⟩
    · rw [Layer.forward, whole]
      rfl
    · rw [Layer.forward, part]
      exact congrArg Except.ok activated

namespace Network

variable {n : Network Parameter} {counts : List Nat}

/-- Pruning an accepted network is masking it, also in single precision. For every sample of its
    width, the pruned network returns, bit for bit, what the network returns when every neuron that
    was discarded is overwritten with zero after its activation. -/
theorem forward_pruned {given : Nat} {literals : List (Layer Parameter)}
    (accepted : ofLayers given literals = .ok n) (removable : n.Removable counts)
    {xs : List Float32} (width : xs.length = n.inputs) :
    ∃ p kept scores, n.prune counts = .ok p ∧ n.ChainedPruning counts kept p ∧
      p.forward xs = .ok scores ∧ maskedPass 0 Layer.forward n.layers kept.tail xs = .ok scores := by
  have wellFormed : n.WellFormed := wellFormed_of_ofLayers_eq_ok accepted
  obtain ⟨scores, parent, pruned⟩ := wellFormed.foldlM_pruned selective_forward removable width
  exact ⟨n.pruned counts, n.kept counts, scores, wellFormed.prune_eq removable,
    wellFormed.chainedPruning removable, pruned, parent⟩

theorem forward_pruned_small :
    ofLayers small.inputs small.layers = .ok small ∧ small.Removable [1] ∧
      ∃ p kept scores, small.prune [1] = .ok p ∧ small.ChainedPruning [1] kept p ∧
        p.forward [1, Binary32.negInfinity] = .ok scores ∧
        maskedPass 0 Layer.forward small.layers kept.tail [1, Binary32.negInfinity] =
          .ok scores := by
  have accepted : ofLayers small.inputs small.layers = .ok small := rfl
  have removable : small.Removable [1] := ⟨by decide, .cons (by decide) .nil⟩
  exact ⟨accepted, removable, forward_pruned accepted removable rfl⟩

end Network

end FixedPointNet
