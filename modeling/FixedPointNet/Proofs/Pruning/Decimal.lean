import FixedPointNet.Proofs.Pruning.Counts
import FixedPointNet.Proofs.Settings.Decimal

/-!
# Removal counts of decimal ratios

For a ratio of six decimal places, integer arithmetic tells how many neurons of a layer are a whole
share. The count is computed from the nearest float, whose product with the width is rounded before
its floor is taken. The error of both is far below a millionth, so it matters only where the exact
product is a whole number. There a float below its decimal may leave the product below that number,
and one neuron less is removed. A relative error of at most 2 ^ (-54) does not do that, and no ratio
of the default grid has a larger one.
-/

namespace FixedPointNet.Network

open Binary64 (value? rounded IsMillionths)

/-- The exact product is a whole number, and the product of the float misses it by more than half of
    the last place below it. -/
def FallsShort (p width : Nat) : Prop :=
  10 ^ 6 ∣ p * width ∧
    2 ^ Nat.clog 2 (p * width / 10 ^ 6) / 2 ^ 54 < (p / 10 ^ 6 - rounded (p / 10 ^ 6)) * width

instance (p width : Nat) : Decidable (FallsShort p width) :=
  inferInstanceAs (Decidable (_ ∧ _))

variable {n : Network Parameter} {ratio : Float} {p width : Nat}

/-- The product of a decimal ratio and a width, before it is rounded and after. -/
structure RoundedProduct (p width : Nat) : Prop where
  nonneg : 0 ≤ rounded (p / 10 ^ 6) * width
  small : rounded (p / 10 ^ 6) * width ≤ 2 ^ 64
  near : |rounded (p / 10 ^ 6) * width - (p * width : ℕ) / 10 ^ 6| ≤ 1 / 10 ^ 9
  rounding : |rounded (rounded (p / 10 ^ 6) * width) - rounded (p / 10 ^ 6) * width| ≤ 1 / 10 ^ 9

theorem roundedProduct (p_lt : p < 10 ^ 6) (width_lt : width < 10 ^ 6) :
    RoundedProduct p width := by
  obtain ⟨low, high⟩ := abs_le.mp
    (Binary64.abs_rounded_millionths_sub_le (show p ≤ 10 ^ 9 by omega))
  have ratio_nonneg : 0 ≤ rounded (p / 10 ^ 6) := Binary64.rounded_nonneg (by positivity)
  have width_nonneg : (0 : ℚ) ≤ width := width.cast_nonneg
  have width_le : (width : ℚ) ≤ 10 ^ 6 := by exact_mod_cast width_lt.le
  have exact_le : (p * width : ℚ) ≤ 10 ^ 6 * width := by
    exact_mod_cast Nat.mul_le_mul_right width p_lt.le
  have low := mul_le_mul_of_nonneg_right low width_nonneg
  have high := mul_le_mul_of_nonneg_right high width_nonneg
  have nonneg := mul_nonneg ratio_nonneg width_nonneg
  have small : rounded (p / 10 ^ 6) * width ≤ 10 ^ 6 + 1 := by linarith
  have rounding := Binary64.abs_rounded_sub_le_of_le_two_pow nonneg (by linarith)
  refine ⟨nonneg, by linarith, ?_, by linarith⟩
  push_cast
  rw [abs_le]
  constructor <;> linarith

theorem natCast_div_million {m : Nat} (divides : 10 ^ 6 ∣ m) :
    ((m / 10 ^ 6 : ℕ) : ℚ) = m / 10 ^ 6 := by
  rw [Nat.cast_div divides (by norm_num)]
  norm_num

/-- Whether one neuron is missed is whether the product is rounded to below the whole number. -/
theorem fallsShort_iff (p_lt : p < 10 ^ 6) (width_lt : width < 10 ^ 6)
    (divides : 10 ^ 6 ∣ p * width) :
    FallsShort p width ↔
      rounded (rounded (p / 10 ^ 6) * width) < (p * width / 10 ^ 6 : ℕ) := by
  obtain ⟨nonneg, -, near, -⟩ := roundedProduct p_lt width_lt
  have exact := natCast_div_million divides
  have missing : (p / 10 ^ 6 - rounded (p / 10 ^ 6) : ℚ) * width =
      (p * width / 10 ^ 6 : ℕ) - rounded (p / 10 ^ 6) * width := by
    rw [exact, sub_mul]
    push_cast
    ring
  have count_le : p * width / 10 ^ 6 ≤ width :=
    Nat.div_le_of_le_mul (Nat.mul_le_mul_right width p_lt.le)
  rw [FallsShort, and_iff_right divides, missing]
  rw [← exact] at near
  generalize p * width / 10 ^ 6 = count at *
  generalize rounded (p / 10 ^ 6) * width = v at *
  rcases lt_or_ge v count with below | above
  · have positive : 0 < count := by exact_mod_cast nonneg.trans_lt below
    rw [abs_le] at near
    exact (Binary64.rounded_lt_natCast_iff positive (by omega) (by linarith) below).symm
  · have whole : rounded (count : ℚ) = count :=
      Binary64.rounded_of_value? (Binary64.value?_ofNat_of_le (by omega))
    have rounds := Rounding.rounded_mono .binary64 above
    have unit : (0 : ℚ) < 2 ^ Nat.clog 2 count / 2 ^ 54 := by positivity
    constructor
    · intro missed
      linarith
    · intro missed
      linarith

/-- Unless the float falls short, the rounded product is not below the floor of the exact one. -/
theorem count_le_rounded (p_lt : p < 10 ^ 6) (width_lt : width < 10 ^ 6)
    (reaches : ¬ FallsShort p width) :
    ((p * width / 10 ^ 6 : ℕ) : ℚ) ≤ rounded (rounded (p / 10 ^ 6) * width) := by
  by_cases divides : 10 ^ 6 ∣ p * width
  · rw [fallsShort_iff p_lt width_lt divides] at reaches
    exact not_lt.mp reaches
  · obtain ⟨-, -, near, rounding⟩ := roundedProduct p_lt width_lt
    have part : 10 ^ 6 * (p * width / 10 ^ 6) + 1 ≤ p * width := by
      have remainder := Nat.pos_of_ne_zero (Nat.dvd_iff_mod_eq_zero.not.mp divides)
      omega
    have gap := Binary64.millionths_le part
    rw [abs_le] at near rounding
    push_cast at gap near ⊢
    linarith

/-- The rounded product does not reach the integer above the floor of the exact one. -/
theorem rounded_lt_count_add_one (p_lt : p < 10 ^ 6) (width_lt : width < 10 ^ 6) :
    rounded (rounded (p / 10 ^ 6) * width) < (p * width / 10 ^ 6 : ℕ) + 1 := by
  obtain ⟨-, -, near, rounding⟩ := roundedProduct p_lt width_lt
  have part : p * width + 1 ≤ 10 ^ 6 * (p * width / 10 ^ 6 + 1) := by omega
  have gap := Binary64.millionths_le part
  rw [abs_le] at near rounding
  push_cast at gap near ⊢
  linarith

/-- The count of a layer. -/
theorem toNat_floorClamp_millionths (nearest : IsMillionths p ratio) (p_lt : p < 10 ^ 6)
    (width_lt : width < 10 ^ 6) :
    (Binary64.floorClamp 0 maxCount (ratio * Binary64.ofNat width)).toNat =
      if FallsShort p width then p * width / 10 ^ 6 - 1 else p * width / 10 ^ 6 := by
  obtain ⟨nonneg, small, near, rounding⟩ := roundedProduct p_lt width_lt
  have below := rounded_lt_count_add_one p_lt width_lt
  have count_le : p * width / 10 ^ 6 ≤ width :=
    Nat.div_le_of_le_mul (Nat.mul_le_mul_right width p_lt.le)
  have value : value? (ratio * Binary64.ofNat width) =
      some (rounded (rounded (p / 10 ^ 6) * width)) := by
    apply Binary64.value?_of_abs_le
    · exact Binary64.level_mul (nearest.value? (by omega)) (Binary64.value?_ofNat_of_le (by omega))
    · rwa [abs_of_nonneg nonneg]
  split_ifs with missed
  · have missed_by := (fallsShort_iff p_lt width_lt missed.1).mp missed
    have positive : 0 < p * width / 10 ^ 6 := by
      exact_mod_cast (Binary64.rounded_nonneg nonneg).trans_lt missed_by
    have exact := natCast_div_million missed.1
    rw [abs_le] at near rounding
    apply Binary64.toNat_floorClamp_eq value
    · rw [Nat.cast_sub positive, Nat.cast_one]
      linarith
    · rw [Nat.cast_sub positive, Nat.cast_one]
      linarith
    · rw [maxCount]
      omega
  · apply Binary64.toNat_floorClamp_eq value (count_le_rounded p_lt width_lt missed) below
    rw [maxCount]
    omega

/-- At a decimal ratio, the count of every hidden layer is the floor of the exact product with its
    width, or one less where the product is a whole number that the float falls short of. -/
theorem removalCounts_of_millionths (nearest : IsMillionths p ratio) (p_lt : p < 10 ^ 6)
    (narrow : ∀ l ∈ n.hidden, l.outputs < 10 ^ 6) :
    n.removalCounts ratio = n.hidden.map fun l =>
      if FallsShort p l.outputs then p * l.outputs / 10 ^ 6 - 1 else p * l.outputs / 10 ^ 6 :=
  List.map_congr_left fun l member => toNat_floorClamp_millionths nearest p_lt (narrow l member)

/-- Hidden layers of fifty and of seven neurons. -/
def fiftyAndSeven : Network Parameter :=
  ⟨1, [⟨1, 50, .replicate 50 ⟨0x00000000⟩, .replicate 50 ⟨0x00000000⟩, .relu⟩,
    ⟨50, 7, .replicate 350 ⟨0x00000000⟩, .replicate 7 ⟨0x00000000⟩, .relu⟩,
    ⟨7, 1, .replicate 7 ⟨0x00000000⟩, [⟨0x00000000⟩], .sigmoid⟩]⟩

/-- The decimal 0.58 of fifty neurons is twenty-nine, and one is missed. -/
theorem removalCounts_of_millionths_fiftyAndSeven :
    IsMillionths 580000 0.58 ∧ 580000 < 10 ^ 6 ∧
      (∀ l ∈ fiftyAndSeven.hidden, l.outputs < 10 ^ 6) ∧
      FallsShort 580000 50 ∧ ¬ FallsShort 580000 7 ∧
      fiftyAndSeven.removalCounts 0.58 = [28, 4] := by
  have nearest : IsMillionths 580000 0.58 :=
    Binary64.isMillionths_of_eq_div (by decide) (by decide +kernel)
  have narrow : ∀ l ∈ fiftyAndSeven.hidden, l.outputs < 10 ^ 6 := by decide
  have missed : FallsShort 580000 50 := by decide +kernel
  have reached : ¬ FallsShort 580000 7 := by decide +kernel
  have counts := removalCounts_of_millionths nearest (by decide) narrow
  change _ = [if FallsShort 580000 50 then _ else _, if FallsShort 580000 7 then _ else _] at counts
  rw [if_pos missed, if_neg reached] at counts
  exact ⟨nearest, by decide, narrow, missed, reached, counts⟩

/-- An accepted network at a decimal ratio, with a count that is not the floor of the product. -/
theorem removalCounts_ne_floor :
    ofLayers fiftyAndSeven.inputs fiftyAndSeven.layers = .ok fiftyAndSeven ∧
      IsMillionths 580000 0.58 ∧ 580000 < 10 ^ 6 ∧
      (∀ l ∈ fiftyAndSeven.hidden, l.outputs < 10 ^ 6) ∧
      fiftyAndSeven.removalCounts 0.58 ≠
        fiftyAndSeven.hidden.map fun l => 580000 * l.outputs / 10 ^ 6 := by
  have chained : Chained 1 fiftyAndSeven.layers :=
    .cons rfl ⟨List.length_replicate, List.length_replicate⟩
      (.cons rfl ⟨List.length_replicate, List.length_replicate⟩
        (.cons rfl ⟨List.length_replicate, rfl⟩ (.nil 1)))
  have accepted : ofLayers fiftyAndSeven.inputs fiftyAndSeven.layers = .ok fiftyAndSeven :=
    ofLayers_eq_ok_iff.mpr ⟨List.cons_ne_nil _ _, chained, by decide, rfl⟩
  exact ⟨accepted, Binary64.isMillionths_of_eq_div (by decide) (by decide +kernel), by decide, by decide,
    by decide +kernel⟩

/-- A relative error of half a unit in the last place misses nothing. -/
theorem not_fallsShort_of_le
    (le : (p / 10 ^ 6 - rounded (p / 10 ^ 6) : ℚ) ≤ (p / 10 ^ 6 : ℚ) / 2 ^ 54) :
    ¬ FallsShort p width := by
  rintro ⟨divides, missed⟩
  have exact := natCast_div_million divides
  have power : ((p * width / 10 ^ 6 : ℕ) : ℚ) ≤ 2 ^ Nat.clog 2 (p * width / 10 ^ 6) := by
    exact_mod_cast Nat.le_pow_clog Nat.one_lt_two _
  have width_nonneg : (0 : ℚ) ≤ width := width.cast_nonneg
  have scaled := mul_le_mul_of_nonneg_right le width_nonneg
  rw [exact] at power
  push_cast at power
  linarith

/-- The ratios of the default grid remove the exact floors. -/
theorem removalCounts_default {k : Nat} (at_k : Settings.default.ratios[k]? = some ratio)
    (narrow : ∀ l ∈ n.hidden, l.outputs < 10 ^ 6) :
    n.removalCounts ratio = n.hidden.map fun l => k * l.outputs / 50 := by
  have grid := Settings.decimalGrid_default
  obtain ⟨le, rfl⟩ := grid.getElem?_ratios_iff.mp at_k
  have nearest := grid.isMillionths_ratioAt le
  have near : ∀ k < 26,
      ((0 + k * 20000 : ℕ) / 10 ^ 6 - rounded ((0 + k * 20000 : ℕ) / 10 ^ 6) : ℚ) ≤
        (0 + k * 20000 : ℕ) / 10 ^ 6 / 2 ^ 54 := by
    decide +kernel
  refine List.map_congr_left fun l member => ?_
  have product : (0 + k * 20000) * l.outputs = 20000 * (k * l.outputs) := by ring
  rw [toNat_floorClamp_millionths nearest (by omega) (narrow l member),
    if_neg (not_fallsShort_of_le (near k (by omega))), product,
    show 10 ^ 6 = 20000 * 50 from rfl, Nat.mul_div_mul_left _ _ (by decide)]

end FixedPointNet.Network
