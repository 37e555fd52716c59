import FixedPointNet.Proofs.Binary64.Error
import FixedPointNet.Proofs.Binary64.Monotone
import FixedPointNet.Proofs.Cost
import FixedPointNet.Proofs.Pruning.Chain

/-!
# Removal counts

A larger ratio removes at least as many neurons from every hidden layer, and one that is not too
close to one leaves a neuron in each. A network with more neurons removed costs no more, and it
takes as many registers only if the same numbers are removed.
-/

namespace FixedPointNet.Network

open Binary64 (value? level limit rounded roundedUp NotNegative)

variable {n : Network Parameter} {a b counts : List Nat} {hidden : List (Layer Parameter)}
  {head : Layer Parameter}

theorem maxCount_le_limit : maxCount ≤ Binary64.limit := by
  calc (maxCount : ℚ) ≤ 2 ^ 64 := by norm_num [maxCount]
    _ ≤ Binary64.limit := pow_le_pow_right₀ one_le_two (by decide)

theorem removalCounts_le_removalCounts {ratio ratio' : Float} (notNegative : NotNegative ratio)
    (le : level ratio ≤ level ratio') (positive : ∀ l ∈ n.hidden, 0 < l.outputs) :
    List.Forall₂ (· ≤ ·) (n.removalCounts ratio) (n.removalCounts ratio') := by
  rw [removalCounts, removalCounts, List.forall₂_map_left_iff, List.forall₂_map_right_iff,
    List.forall₂_same]
  intro l member
  have products := Binary64.level_mul_le_level_mul (Binary64.level_ofNat_pos (positive l member))
    notNegative le
  exact Int.toNat_le_toNat (Binary64.floorClamp_mono (by decide) maxCount_le_limit products)

/-- What is below a width counts fewer neurons than the width. -/
theorem toNat_floorClamp_lt {x : Float} {v : ℚ} {width : Nat} (nonneg : 0 ≤ v) (le : level x ≤ v)
    (below : v < width) : (Binary64.floorClamp 0 maxCount x).toNat < width := by
  have count_nonneg := (Binary64.floorClamp_between le_rfl (show 0 ≤ maxCount by decide) x).1
  have count_le := Binary64.floorClamp_le_of_level_le (by decide) maxCount_le_limit nonneg le
  rw [Int.toNat_lt count_nonneg]
  exact_mod_cast count_le.trans_lt below

/-- Rounding does not bring a share of a width up to the width. -/
theorem floorClamp_mul_ofNat_lt {ratio : Float} {width : Nat} (positive : 0 < width)
    (nonneg : (0 : ℚ) ≤ level ratio) (le : level ratio ≤ (1 - 1 / 2 ^ 40 : ℚ)) :
    (Binary64.floorClamp 0 maxCount (ratio * Binary64.ofNat width)).toNat < width := by
  have count_le := (Binary64.floorClamp_between (le_refl 0)
    (show 0 ≤ maxCount by decide) (ratio * Binary64.ofNat width)).2
  rcases Nat.lt_or_ge maxCount.toNat width with wide | fits
  · -- no count of a machine word reaches such a width
    exact (Int.toNat_le_toNat count_le).trans_lt wide
  have far := Binary64.two_pow_lt_limit
  have width_le : (width : ℚ) ≤ 2 ^ 64 := by
    have below : width ≤ 2 ^ 64 := fits.trans (by decide)
    exact_mod_cast below
  have one_le : (1 : ℚ) ≤ width := Nat.one_le_cast.mpr positive
  cases at_v : level ratio with
  | bot =>
    rw [at_v] at nonneg
    cases nonneg
  | coe v =>
    rw [at_v, WithBot.coe_le_coe] at nonneg le
    have share : value? ratio = some v :=
      Binary64.value?_of_level at_v (by rw [abs_of_nonneg nonneg]; linarith)
    have w_nonneg : 0 ≤ rounded width := Binary64.rounded_nonneg width.cast_nonneg
    have w_le : rounded width ≤ roundedUp width := Binary64.rounded_le_roundedUp width.cast_nonneg
    have product_le : v * rounded width ≤ (1 - 1 / 2 ^ 40) * rounded width :=
      mul_le_mul_of_nonneg_right le w_nonneg
    have product_nonneg : 0 ≤ v * rounded width := mul_nonneg nonneg w_nonneg
    have below : rounded (v * rounded width) < width := by
      refine (Binary64.rounded_le_roundedUp product_nonneg).trans_lt ?_
      simp only [roundedUp] at w_le ⊢
      linarith
    have product := Binary64.level_mul share (Binary64.value?_ofNat width_le)
    exact toNat_floorClamp_lt (Binary64.rounded_nonneg product_nonneg) product.le below

/-- Counts of a ratio can be removed if each of them is below the width it is taken of. -/
theorem removable_removalCounts_of_lt {ratio : Float} (deep : 2 ≤ n.layers.length)
    (below : ∀ l ∈ n.hidden,
      (Binary64.floorClamp 0 maxCount (ratio * Binary64.ofNat l.outputs)).toNat < l.outputs) :
    n.Removable (n.removalCounts ratio) := by
  refine ⟨deep, ?_⟩
  rw [removalCounts, List.forall₂_map_right_iff, List.forall₂_same]
  exact below

/-- A ratio that keeps a distance from one leaves a neuron in every hidden layer. -/
theorem removable_removalCounts {ratio : Float} (deep : 2 ≤ n.layers.length)
    (positive : ∀ l ∈ n.hidden, 0 < l.outputs) (nonneg : (0 : ℚ) ≤ level ratio)
    (le : level ratio ≤ (1 - 1 / 2 ^ 40 : ℚ)) : n.Removable (n.removalCounts ratio) :=
  removable_removalCounts_of_lt deep fun l member =>
    floorClamp_mul_ofNat_lt (positive l member) nonneg le

theorem Removable.positive (removable : n.Removable counts) : ∀ l ∈ n.hidden, 0 < l.outputs := by
  have both := removable.below.imp fun l remove below =>
    (⟨Nat.zero_lt_of_lt below, below⟩ : 0 < l.outputs ∧ remove < l.outputs)
  exact ((List.forall₂_and_left _ _).mp both).1

theorem map_outputs_prunedLayers (inputs : List Nat) (head : Layer Parameter)
    (lengths : hidden.length = counts.length) :
    (prunedLayers inputs (hidden ++ [head]) counts).map Layer.outputs =
      List.zipWith (fun l remove => l.outputs - remove) hidden counts ++ [head.outputs] := by
  induction hidden generalizing inputs counts with
  | nil =>
    obtain rfl : counts = [] := List.eq_nil_of_length_eq_zero lengths.symm
    simp [prunedLayers, Layer.restriction]
  | cons l hidden ih =>
    cases counts with
    | nil => simp at lengths
    | cons remove counts =>
      have width : (l.keptOutputs inputs remove).length = l.outputs - remove :=
        (l.keeps_keptOutputs inputs remove).length
      simp [prunedLayers, Layer.restriction, width, ih _ (Nat.succ_inj.mp lengths)]

/-- The widths of a pruned network: each hidden layer has lost what is removed. -/
theorem Removable.widths_pruned (removable : n.Removable counts) :
    (n.pruned counts).widths = n.inputs ::
      (List.zipWith (fun l remove => l.outputs - remove) n.hidden counts ++ [n.outputs]) := by
  obtain ⟨head, last⟩ : ∃ head, n.layers.getLast? = some head := by
    have deep := removable.hidden
    rw [← Option.isSome_iff_exists, List.getLast?_isSome]
    intro none
    simp [none] at deep
  have layers : n.layers = n.hidden ++ [head] := by
    rw [Network.hidden, List.dropLast_append_getLast? head last]
  have outputs : n.outputs = head.outputs := by rw [Network.outputs, last]
  rw [widths, pruned, layers, map_outputs_prunedLayers _ head removable.below.length_eq, outputs]

theorem Removable.outputs_hidden_pruned (removable : n.Removable counts) :
    (n.pruned counts).hidden.map Layer.outputs =
      List.zipWith (fun l remove => l.outputs - remove) n.hidden counts := by
  have widths := (List.cons.inj removable.widths_pruned).2
  rw [Network.hidden, List.map_dropLast, widths, List.dropLast_concat]

/-- Every hidden layer keeps a neuron. -/
theorem Removable.positive_pruned (removable : n.Removable counts) :
    ∀ l ∈ (n.pruned counts).hidden, 0 < l.outputs := by
  intro l member
  have width := List.mem_map_of_mem (f := Layer.outputs) member
  rw [removable.outputs_hidden_pruned, ← List.map_uncurry_zip_eq_zipWith, List.mem_map] at width
  obtain ⟨⟨parent, remove⟩, at_both, width⟩ := width
  rw [← width]
  exact Nat.sub_pos_of_lt (List.forall₂_zip removable.below at_both)

theorem narrower_of_le (le : List.Forall₂ (· ≤ ·) a b) (hidden : List (Layer Parameter))
    (width : Nat) :
    List.Forall₂ (· ≤ ·)
      (List.zipWith (fun l remove => l.outputs - remove) hidden b ++ [width])
      (List.zipWith (fun l remove => l.outputs - remove) hidden a ++ [width]) := by
  refine List.rel_append ?_ (.cons (Nat.le_refl _) .nil)
  induction le generalizing hidden with
  | nil => simp
  | cons le _ ih =>
    cases hidden with
    | nil => simp
    | cons l hidden => exact .cons (Nat.sub_le_sub_left le _) (ih hidden)

/-- The widths that are left tell the counts that were removed. -/
theorem eq_of_zipWith_sub_eq (below_a : List.Forall₂ (fun l remove => remove < l.outputs) hidden a)
    (below_b : List.Forall₂ (fun l remove => remove < l.outputs) hidden b)
    (same : List.zipWith (fun l remove => l.outputs - remove) hidden a =
      List.zipWith (fun l remove => l.outputs - remove) hidden b) : a = b := by
  induction below_a generalizing b with
  | nil => cases below_b; rfl
  | @cons l remove hidden a below _ ih =>
    obtain _ | ⟨below', rest⟩ := below_b
    obtain ⟨first, others⟩ := List.cons.inj same
    obtain rfl := ih rest others
    dsimp only at first
    congr 1
    omega

/-- More removals cost no more units of any kind. -/
theorem Removable.cost_pruned_le (removable_a : n.Removable a) (removable_b : n.Removable b)
    (le : List.Forall₂ (· ≤ ·) a b) : (n.pruned b).cost ≤ (n.pruned a).cost := by
  rw [cost, cost, removable_a.widths_pruned, removable_b.widths_pruned]
  exact Cost.ofWidths_le_ofWidths (narrower_of_le le n.hidden n.outputs) (Nat.le_refl _)

/-- More removals take as many adders only if they are the same. -/
theorem Removable.eq_of_adders_le (removable_a : n.Removable a) (removable_b : n.Removable b)
    (le : List.Forall₂ (· ≤ ·) a b)
    (adders : (n.pruned a).cost.adders ≤ (n.pruned b).cost.adders) : a = b := by
  rw [cost, cost, removable_a.widths_pruned, removable_b.widths_pruned] at adders
  have same := Cost.eq_of_adders_le (narrower_of_le le n.hidden n.outputs) adders
  exact eq_of_zipWith_sub_eq removable_a.below removable_b.below
    (List.append_cancel_right same).symm

/-- More removals take as many registers only if they are the same. -/
theorem Removable.eq_of_registers_le (removable_a : n.Removable a) (removable_b : n.Removable b)
    (le : List.Forall₂ (· ≤ ·) a b)
    (registers : (n.pruned a).cost.registers ≤ (n.pruned b).cost.registers) : a = b := by
  apply removable_a.eq_of_adders_le removable_b le
  rw [cost, cost, removable_a.widths_pruned, removable_b.widths_pruned] at registers ⊢
  exact Cost.adders_le_of_registers_le (narrower_of_le le n.hidden n.outputs) registers

end FixedPointNet.Network
