import FixedPointNet.Proofs.Exponential.Grid
import FixedPointNet.Proofs.Exponential.Series

/-!
# Accuracy of the table exponential

The entries of both tables are exponentials up to rounding, so the product of two entries is the
exponential of the grid point that they stand for. A grid point misses the argument by up to half a
step upwards, or by less than a whole step downwards, and the exponential follows it: the result is
less than one part in a thousand off the exponential of the limited argument.
-/

namespace FixedPointNet.Exponential

open Binary64 (value? rounded)

/-- A number differs from a positive real number by a share of it at most. -/
def Near (e : ℝ) (v : ℚ) (y : ℝ) : Prop :=
  |(v : ℝ) - y| ≤ y * e

variable {v w : ℚ} {y z d e k r : ℝ} {i : Nat}

namespace Near

theorem mono (near : Near e v y) (y_pos : 0 < y) (le : e ≤ d) : Near d v y :=
  near.trans (mul_le_mul_of_nonneg_left le y_pos.le)

theorem mul (near : Near (1 / 10 ^ 14) v y) (near' : Near (1 / 10 ^ 14) w z) (y_pos : 0 < y)
    (z_pos : 0 < z) : Near (3 / 10 ^ 14) (v * w) (y * z) := by
  have split : (v * w : ℝ) - y * z = (v - y) * (w - z) + (v - y) * z + y * (w - z) := by ring
  have first : |(v - y : ℝ) * (w - z)| ≤ y * (1 / 10 ^ 14) * (z * (1 / 10 ^ 14)) := by
    rw [abs_mul]
    exact mul_le_mul near near' (abs_nonneg _) (by positivity)
  have second : |(v - y : ℝ) * z| ≤ y * (1 / 10 ^ 14) * z := by
    rw [abs_mul, abs_of_pos z_pos]
    exact mul_le_mul_of_nonneg_right near z_pos.le
  have third : |y * (w - z : ℝ)| ≤ y * (z * (1 / 10 ^ 14)) := by
    rw [abs_mul, abs_of_pos y_pos]
    exact mul_le_mul_of_nonneg_left near' y_pos.le
  have product := mul_pos y_pos z_pos
  have sum := (abs_add_three _ _ _).trans (add_le_add (add_le_add first second) third)
  rw [Near, Rat.cast_mul, split]
  linarith

/-- A factor near one can be left out. -/
theorem of_mul (near : Near e v (y * k)) (factor : |k - 1| ≤ r) (y_pos : 0 < y) (nonneg : 0 ≤ e)
    (small : r ≤ 1) : Near (2 * e + r) v y := by
  have change : |y * k - y| ≤ y * r := by
    rw [← mul_sub_one, abs_mul, abs_of_pos y_pos]
    exact mul_le_mul_of_nonneg_left factor y_pos.le
  have k_le : k ≤ 2 := by linarith [le_abs_self (k - 1)]
  have share : y * k * e ≤ y * 2 * e :=
    mul_le_mul_of_nonneg_right (mul_le_mul_of_nonneg_left k_le y_pos.le) nonneg
  have through := (abs_sub_le (v : ℝ) (y * k) y).trans (add_le_add near change)
  rw [Near]
  linarith

/-- Rounding a number of ordinary size moves it by next to nothing. -/
theorem rounded (near : Near e v y) (nonneg : 0 ≤ v) (low : 1 / 10 ^ 5 ≤ y) (high : y ≤ 10 ^ 5)
    (small : e ≤ 1) : Near (e + 1 / 10 ^ 15) (rounded v) y := by
  have y_pos : 0 < y := lt_of_lt_of_le (by norm_num) low
  have v_le : (v : ℝ) ≤ 2 * y := by
    have above := (abs_le.mp near).2
    have share := mul_le_mul_of_nonneg_left small y_pos.le
    linarith
  have v_small : v ≤ Binary64.limit := by
    have bound : (v : ℝ) ≤ (2 ^ 64 : ℚ) := by
      push_cast
      linarith
    exact (Rat.cast_le.mp bound).trans Binary64.two_pow_lt_limit.le
  have moved : ((|Binary64.rounded v - v| : ℚ) : ℝ) ≤ (v / 2 ^ 53 + 1 / 2 ^ 200 : ℚ) :=
    Rat.cast_le.mpr (Binary64.abs_rounded_sub_le nonneg v_small)
  push_cast at moved
  have through := (abs_sub_le ((Binary64.rounded v : ℚ) : ℝ) v y).trans (add_le_add moved near)
  rw [Near]
  norm_num at through low ⊢
  linarith

end Near

/-- The series, rounded, is the exponential. -/
theorem near_rounded_scaledExp (small : |v| ≤ 10) :
    Near (2 / 10 ^ 15) (rounded (scaledExp v / 2 ^ seriesBits)) (Real.exp v) := by
  obtain ⟨low, high⟩ := exp_between (x := v) (by exact_mod_cast small)
  have series : Near (1 / 10 ^ 40) (scaledExp v / 2 ^ seriesBits) (Real.exp v) := by
    rw [Near, mul_one_div]
    push_cast
    exact abs_scaledExp_sub_le small
  exact (series.rounded (by positivity) low high (by norm_num)).mono (Real.exp_pos _) (by norm_num)

theorem near_wholeValue (inside : i ≤ 18) :
    Near (1 / 10 ^ 14) (wholeValue i) (Real.exp ((i : ℝ) - 9)) := by
  have position_le : (i : ℚ) ≤ 18 := by exact_mod_cast inside
  have position_nonneg : (0 : ℚ) ≤ i := i.cast_nonneg
  have near := near_rounded_scaledExp (v := i - 9) (abs_le.mpr ⟨by linarith, by linarith⟩)
  push_cast at near
  exact near.mono (Real.exp_pos _) (by norm_num)

/-- The entry is taken at the nearest float of a thousandth, which is as good as the thousandth. -/
theorem near_fractionValue (inside : i ≤ 1998) :
    Near (1 / 10 ^ 14) (fractionValue i) (Real.exp (((i : ℝ) - 999) / 1000)) := by
  have position_le : (i : ℚ) ≤ 1998 := by exact_mod_cast inside
  have position_nonneg : (0 : ℚ) ≤ i := i.cast_nonneg
  have small : |((i - 999) / 1000 : ℚ)| ≤ 2 := abs_le.mpr ⟨by linarith, by linarith⟩
  have thousandth : ((i : ℝ) - 999) / 1000 = (((i - 999) / 1000 : ℚ) : ℝ) := by
    push_cast
    rfl
  rw [thousandth, fractionValue]
  generalize ((i - 999) / 1000 : ℚ) = f at *
  obtain ⟨low, high⟩ := abs_le.mp small
  have moved := Binary64.abs_rounded_sub_le_of_abs_le small
  obtain ⟨moved_low, moved_high⟩ := abs_le.mp moved
  have near := near_rounded_scaledExp (v := rounded f) (abs_le.mpr ⟨by linarith, by linarith⟩)
  have difference : ((|rounded f - f| : ℚ) : ℝ) ≤ (1 / 10 ^ 15 : ℚ) := Rat.cast_le.mpr moved
  push_cast at difference
  have factor := (Real.abs_exp_sub_one_le (difference.trans (by norm_num))).trans
    (mul_le_mul_of_nonneg_left difference two_pos.le)
  have split : Real.exp (rounded f : ℚ) = Real.exp f * Real.exp ((rounded f : ℚ) - f) := by
    rw [← Real.exp_add, add_sub_cancel]
  rw [split] at near
  have positive := Real.exp_pos (f : ℝ)
  exact (near.of_mul factor positive (by norm_num) (by norm_num)).mono positive (by norm_num)

/-- The result is the exponential of the grid point. -/
theorem exists_near_tableExp (x : Float) : ∃ t, value? (tableExp x) = some t ∧
    Near (1 / 10 ^ 13) t (Real.exp (gridPoint x)) := by
  have fraction_le := fractionIndex_le (limited x)
  obtain ⟨lowest, highest⟩ := wholePart_between (limited x)
  have index : (wholeIndex (limited x) : ℤ) = wholePart (limited x) + 9 := by
    rw [wholeIndex, wholeLimit]
    omega
  have whole : (wholeIndex (limited x) : ℝ) = wholePart (limited x) + 9 := by exact_mod_cast index
  have point : (gridPoint x : ℝ) = ((wholeIndex (limited x) : ℝ) - 9) +
      ((fractionIndex (limited x) : ℝ) - 999) / 1000 := by
    rw [gridPoint, whole]
    push_cast
    ring
  have small : |(gridPoint x : ℝ)| ≤ 10 := by
    have fraction_high : (fractionIndex (limited x) : ℝ) ≤ 1998 := by exact_mod_cast fraction_le
    have fraction_low : (0 : ℝ) ≤ fractionIndex (limited x) := Nat.cast_nonneg _
    have whole_low : (-9 : ℝ) ≤ wholePart (limited x) := by exact_mod_cast lowest
    have whole_high : (wholePart (limited x) : ℝ) ≤ 9 := by exact_mod_cast highest
    rw [point, whole, abs_le]
    constructor <;> linarith
  obtain ⟨low, high⟩ := exp_between small
  have product := (near_wholeValue (wholeIndex_le (limited x))).mul
    (near_fractionValue fraction_le) (Real.exp_pos _) (Real.exp_pos _)
  rw [← Real.exp_add, ← point] at product
  have rounds := product.rounded (entries_mul_between _).1 low high (by norm_num)
  exact ⟨_, value?_tableExp x, rounds.mono (Real.exp_pos _) (by norm_num)⟩

/-- A step of a thousandth down or of half a thousandth up changes the exponential by less than one
    part in a thousand. -/
theorem abs_exp_sub_one_le (low : -(1 / 1000) ≤ d) (high : d ≤ 6 / 10 ^ 4) :
    |Real.exp d - 1| ≤ 9996 / 10 ^ 7 := by
  have least : 1 - 9996 / 10 ^ 7 ≤ Real.exp (-(1 / 1000)) := by
    have near := Real.exp_bound (show |(-(1 / 1000) : ℝ)| ≤ 1 by norm_num [abs_le]) three_pos
    norm_num [Finset.sum_range_succ, Nat.factorial, abs_le] at near ⊢
    linarith
  have most : Real.exp (6 / 10 ^ 4) ≤ 1 + 9996 / 10 ^ 7 := by
    have near := Real.exp_bound (show |(6 / 10 ^ 4 : ℝ)| ≤ 1 by norm_num [abs_le]) three_pos
    norm_num [Finset.sum_range_succ, Nat.factorial, abs_le] at near ⊢
    linarith
  have above := least.trans (Real.exp_le_exp.mpr low)
  have below := (Real.exp_le_exp.mpr high).trans most
  rw [abs_le]
  constructor <;> linarith

/-- The table exponential is less than one part in a thousand off the exponential of its limited
    argument, whatever the argument is. -/
theorem abs_tableExp_sub_exp_lt (x : Float) : ∃ v t, value? (limited x) = some v ∧
    value? (tableExp x) = some t ∧ |(t : ℝ) - Real.exp v| < Real.exp v / 1000 := by
  obtain ⟨v, at_v, inside⟩ := exists_value?_limited_of_any x
  obtain ⟨t, at_t, near⟩ := exists_near_tableExp x
  have miss : -(1 / 1000) ≤ gridPoint x - v ∧ gridPoint x - v ≤ 6 / 10 ^ 4 := by
    rcases gridPoint_cases at_v inside with ⟨-, half⟩ | ⟨-, beyond, down⟩
    · obtain ⟨low, high⟩ := abs_le.mp half
      constructor <;> linarith
    · have below := Int.fract_lt_one v
      constructor <;> linarith
  have low : ((-(1 / 1000) : ℚ) : ℝ) ≤ (gridPoint x - v : ℚ) := Rat.cast_le.mpr miss.1
  have high : ((gridPoint x - v : ℚ) : ℝ) ≤ (6 / 10 ^ 4 : ℚ) := Rat.cast_le.mpr miss.2
  push_cast at low high
  have factor := abs_exp_sub_one_le low high
  have split : Real.exp (gridPoint x) = Real.exp v * Real.exp (gridPoint x - v) := by
    rw [← Real.exp_add, add_sub_cancel]
  have positive := Real.exp_pos (v : ℝ)
  rw [split] at near
  have total := near.of_mul factor positive (by norm_num) (by norm_num)
  rw [Near] at total
  exact ⟨v, t, at_v, at_t, by linarith⟩

end FixedPointNet.Exponential
