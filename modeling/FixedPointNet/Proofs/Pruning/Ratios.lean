import FixedPointNet.Proofs.Binary64.Exact
import FixedPointNet.Proofs.Pruning.Sizes
import FixedPointNet.Proofs.Settings

/-!
# Ratios below one

The greatest ratio below one is one part in 2 ^ 53 away from it. Up to a width of 2 ^ 53 that is
enough: the product with the width misses the width by more than rounding can add, so its floor
leaves a neuron in every hidden layer. Larger ratios remove at least as much and cost no more.
-/

namespace FixedPointNet.Network

open Binary64 (value?)

variable {n : Network Parameter} {ratio low high : Float}

theorem exists_value?_of_ratio (nonneg : 0 ≤ ratio) (below : ratio < 1) :
    ∃ v, value? ratio = some v ∧ 0 ≤ v ∧ v ≤ 1 - 1 / 2 ^ 53 := by
  have share : Settings.isShare ratio = true := by simp [Settings.isShare, nonneg, below]
  obtain ⟨v, value, v_nonneg, v_below⟩ := Settings.isShare_eq_true_iff.mp share
  exact ⟨v, value, v_nonneg, Binary64.le_one_sub_of_lt (Binary64.representable value) v_below⟩

/-- Rounding does not bring a ratio of an exact width up to the width. -/
theorem floorClamp_mul_ofNat_lt_of_lt_one {width : Nat} (positive : 0 < width)
    (exact : width ≤ 2 ^ 53) (nonneg : 0 ≤ ratio) (below : ratio < 1) :
    (Binary64.floorClamp 0 maxCount (ratio * Binary64.ofNat width)).toNat < width := by
  obtain ⟨v, value, v_nonneg, v_le⟩ := exists_value?_of_ratio nonneg below
  have product := Binary64.level_mul value (Binary64.value?_ofNat_of_le exact)
  have product_nonneg := Binary64.rounded_nonneg (mul_nonneg v_nonneg width.cast_nonneg)
  have product_lt := Binary64.rounded_mul_natCast_lt positive v_nonneg v_le
  exact toNat_floorClamp_lt product_nonneg product.le product_lt

/-- There is a hidden layer, and the width of every hidden layer is positive and small enough for
    double precision to hold it exactly. -/
structure ExactWidths (n : Network Parameter) : Prop where
  deep : 2 ≤ n.layers.length
  positive : ∀ l ∈ n.hidden, 0 < l.outputs
  exact : ∀ l ∈ n.hidden, l.outputs ≤ 2 ^ 53

theorem ExactWidths.removable (widths : n.ExactWidths) (nonneg : 0 ≤ ratio) (below : ratio < 1) :
    n.Removable (n.removalCounts ratio) :=
  removable_removalCounts_of_lt widths.deep fun l member =>
    floorClamp_mul_ofNat_lt_of_lt_one (widths.positive l member) (widths.exact l member) nonneg below

theorem ExactWidths.removalCounts_le (widths : n.ExactWidths) (nonneg : 0 ≤ low)
    (le : low ≤ high) : List.Forall₂ (· ≤ ·) (n.removalCounts low) (n.removalCounts high) := by
  rw [Binary64.le_iff, Binary64.level_zero] at nonneg
  exact removalCounts_le_removalCounts (.inr nonneg.2) (Binary64.le_iff.mp le).2 widths.positive

/-- At a ratio from zero to below one, an accepted network with exact widths loses less than each
    hidden layer has, so pruning succeeds and keeps a neuron in every one of them. Between two such
    ratios, the larger one removes at least as many neurons from each layer, and what it leaves is
    nowhere larger. -/
theorem prune_removalCounts_of_lt_one {given : Nat} {literals : List (Layer Parameter)}
    (accepted : ofLayers given literals = .ok n) (widths : n.ExactWidths) :
    (∀ ratio : Float, 0 ≤ ratio → ratio < 1 →
      List.Forall₂ (fun l remove => remove ≤ l.outputs - 1) n.hidden (n.removalCounts ratio) ∧
      ∃ p, n.prune (n.removalCounts ratio) = .ok p ∧ p.layers.length = n.layers.length ∧
        ∀ l ∈ p.hidden, 1 ≤ l.outputs) ∧
    ∀ low high : Float, 0 ≤ low → low ≤ high → high < 1 →
      List.Forall₂ (· ≤ ·) (n.removalCounts low) (n.removalCounts high) ∧
      ∃ p q, n.prune (n.removalCounts low) = .ok p ∧ n.prune (n.removalCounts high) = .ok q ∧
        q.NoLarger p := by
  have wellFormed : n.WellFormed := wellFormed_of_ofLayers_eq_ok accepted
  constructor
  · intro ratio nonneg below
    have removable := widths.removable nonneg below
    exact ⟨removable.below.imp fun _ _ less => Nat.le_sub_one_of_lt less,
      n.pruned (n.removalCounts ratio), wellFormed.prune_eq removable, length_prunedLayers _ _ _,
      removable.positive_pruned⟩
  · intro low high nonneg le below
    obtain ⟨number, low_le⟩ := Binary64.le_iff.mp le
    have high_nonneg : 0 ≤ high := by
      rw [Binary64.le_iff] at nonneg ⊢
      exact ⟨nonneg.1, nonneg.2.trans low_le⟩
    have low_below : low < 1 := by
      rw [Binary64.lt_iff] at below ⊢
      exact ⟨number, low_le.trans_lt below.2⟩
    have removed := widths.removalCounts_le nonneg le
    have removable := widths.removable nonneg low_below
    have removable' := widths.removable high_nonneg below
    exact ⟨removed, _, _, wellFormed.prune_eq removable, wellFormed.prune_eq removable',
      wellFormed.noLarger_pruned removable removable' removed⟩

/-- The greatest ratio below one leaves one of three neurons. -/
theorem prune_removalCounts_of_lt_one_small :
    ofLayers small.inputs small.layers = .ok small ∧ small.ExactWidths ∧
      small.removalCounts 0.5 = [1] ∧ small.removalCounts 0.9999999999999999 = [2] ∧
      ∃ p q, small.prune [1] = .ok p ∧ small.prune [2] = .ok q ∧ q.NoLarger p ∧
        ∀ l ∈ q.hidden, 1 ≤ l.outputs := by
  have accepted : ofLayers small.inputs small.layers = .ok small := rfl
  have widths : small.ExactWidths := ⟨by decide, by decide, by decide⟩
  have half : small.removalCounts 0.5 = [1] := by decide +kernel
  have most : small.removalCounts 0.9999999999999999 = [2] := by decide +kernel
  have below : (0.9999999999999999 : Float) < 1 := by decide +kernel
  obtain ⟨single, pairs⟩ := prune_removalCounts_of_lt_one accepted widths
  obtain ⟨-, q', at_most', -, kept⟩ := single 0.9999999999999999 (by decide +kernel) below
  obtain ⟨-, p, q, at_half, at_most, noLarger⟩ := pairs 0.5 0.9999999999999999
    (by decide +kernel) (by decide +kernel) below
  obtain rfl : q = q' := by simpa [at_most] using at_most'
  rw [half] at at_half
  rw [most] at at_most
  exact ⟨accepted, widths, half, most, p, q, at_half, at_most, noLarger, kept⟩

end FixedPointNet.Network
