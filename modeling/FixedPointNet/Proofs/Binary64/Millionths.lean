import FixedPointNet.Proofs.Binary64.Exact

/-!
# Decimals of six places

A decimal of six places is a number of millionths, and what a program reads for it is the nearest
float. That misses the decimal by at most one part in 2 ^ 53, far less than the distance of two
decimals, so the floats are ordered and told apart as the decimals are.
-/

namespace FixedPointNet.Binary64

/-- The float nearest to a number of millionths. -/
def IsMillionths (n : Nat) (x : Float) : Prop :=
  level x = rounded (n / 10 ^ 6)

variable {x y : Float} {m n : Nat}

theorem millionths_le {k : Nat} (le : n ≤ k) : (n / 10 ^ 6 : ℚ) ≤ k / 10 ^ 6 :=
  div_le_div_of_nonneg_right (Nat.cast_le.mpr le) (by positivity)

theorem abs_rounded_millionths_sub_le (small : n ≤ 10 ^ 9) :
    |rounded (n / 10 ^ 6) - (n / 10 ^ 6 : ℚ)| ≤ (n / 10 ^ 6 : ℚ) / 2 ^ 53 + 1 / 2 ^ 200 := by
  have nonneg : (0 : ℚ) ≤ n / 10 ^ 6 := by positivity
  have below := millionths_le small
  push_cast at below
  exact abs_rounded_sub_le_of_le_two_pow nonneg (by linarith)

theorem rounded_millionths_lt (less : m < n) (small : n ≤ 10 ^ 6) :
    rounded (m / 10 ^ 6) < rounded (n / 10 ^ 6) := by
  have m_near := abs_le.mp (abs_rounded_millionths_sub_le (show m ≤ 10 ^ 9 by omega))
  have n_near := abs_le.mp (abs_rounded_millionths_sub_le (show n ≤ 10 ^ 9 by omega))
  have m_le := millionths_le (show m ≤ 10 ^ 6 by omega)
  have n_le := millionths_le small
  have next := millionths_le (show m + 1 ≤ n by omega)
  push_cast at m_le n_le next
  rw [add_div] at next
  linarith

namespace IsMillionths

theorem value? (nearest : IsMillionths n x) (small : n ≤ 10 ^ 9) :
    value? x = some (rounded (n / 10 ^ 6)) := by
  have below := millionths_le small
  apply value?_of_abs_le nearest
  rw [abs_of_nonneg (by positivity)]
  push_cast at below
  linarith

theorem exists_value? (nearest : IsMillionths n x) (small : n ≤ 10 ^ 9) :
    ∃ v, Binary64.value? x = some v ∧ 0 ≤ v ∧
      |v - n / 10 ^ 6| ≤ (n / 10 ^ 6 : ℚ) / 2 ^ 53 + 1 / 2 ^ 200 :=
  ⟨rounded (n / 10 ^ 6), nearest.value? small, rounded_nonneg (by positivity),
    abs_rounded_millionths_sub_le small⟩

theorem lt_iff (nearest_m : IsMillionths m x) (nearest_n : IsMillionths n y)
    (small : n ≤ 10 ^ 6) : x < y ↔ m < n := by
  rw [Binary64.lt_iff, nearest_m, nearest_n, WithBot.coe_lt_coe]
  constructor
  · rintro ⟨-, less⟩
    by_contra! le
    exact absurd (Rounding.rounded_mono .binary64 (millionths_le le)) less.not_ge
  · intro less
    exact ⟨WithBot.coe_ne_bot, rounded_millionths_lt less small⟩

theorem le_iff (nearest_m : IsMillionths m x) (nearest_n : IsMillionths n y)
    (small : m ≤ 10 ^ 6) : x ≤ y ↔ m ≤ n := by
  rw [Binary64.le_iff, nearest_m, nearest_n, WithBot.coe_le_coe]
  constructor
  · rintro ⟨-, le⟩
    by_contra! less
    exact absurd (rounded_millionths_lt less small) le.not_gt
  · intro le
    exact ⟨WithBot.coe_ne_bot, Rounding.rounded_mono .binary64 (millionths_le le)⟩

theorem beq_iff (nearest_m : IsMillionths m x) (nearest_n : IsMillionths n y)
    (small_m : m ≤ 10 ^ 6) (small_n : n ≤ 10 ^ 6) : (x == y) = true ↔ m = n := by
  constructor
  · intro same
    obtain ⟨number, same⟩ := Binary64.beq_iff.mp same
    have le : x ≤ y := Binary64.le_iff.mpr ⟨number, same.le⟩
    have ge : y ≤ x := Binary64.le_iff.mpr ⟨same ▸ number, same.ge⟩
    exact le_antisymm ((nearest_m.le_iff nearest_n small_m).mp le)
      ((nearest_n.le_iff nearest_m small_n).mp ge)
  · rintro rfl
    rw [Binary64.beq_iff, nearest_m, nearest_n]
    exact ⟨WithBot.coe_ne_bot, rfl⟩

end IsMillionths

/-- The float nearest to a decimal is a quotient of two integers. -/
theorem isMillionths_of_eq_div (small : n ≤ 10 ^ 9) (same : x = ofNat n / ofNat 1000000) :
    IsMillionths n x := by
  have numerator := value?_ofNat_of_le (show n ≤ 2 ^ 53 by omega)
  have denominator := value?_ofNat_of_le (show 1000000 ≤ 2 ^ 53 by omega)
  rw [IsMillionths, same, level_div numerator denominator (by norm_num)]
  norm_num

end FixedPointNet.Binary64
