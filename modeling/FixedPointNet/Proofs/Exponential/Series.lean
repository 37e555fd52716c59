import FixedPointNet.Proofs.Exponential.Nearest

/-!
# The series is the exponential

A tail of the series that is cut off after a hundred terms and floored at every division stays below
the tail it computes, and what flooring takes from it is a share of it that does not grow with the
number of divisions. Up to arguments of ten the series is the exponential to forty digits, and so is
the reciprocal that is taken for a negative argument.
-/

namespace FixedPointNet.Exponential

variable {x : ℝ} {v : ℚ}

/-- The tail of the series at a real number, without flooring. -/
noncomputable def realTail (x : ℝ) (n : Nat) : (terms : Nat) → ℝ
  | 0 => 1
  | terms + 1 => 1 + x / n * realTail x (n + 1) terms

/-- With the terms before it a tail is a partial sum. -/
theorem expNear_realTail (x : ℝ) (n terms : Nat) :
    Real.expNear n x (realTail x (n + 1) terms) =
      ∑ m ∈ Finset.range (n + terms + 1), x ^ m / m.factorial := by
  induction terms generalizing n with
  | zero => rw [realTail, Real.expNear, mul_one, add_zero, Finset.sum_range_succ]
  | succ terms ih =>
    rw [realTail, Nat.cast_succ, ← Real.expNear_succ, ih, Nat.succ_add_eq_add_succ]

/-- Up to ten, a hundred terms leave nearly nothing of the exponential. -/
theorem realTail_between (nonneg : 0 ≤ x) (le : x ≤ 10) :
    realTail x 1 100 ≤ Real.exp x ∧ Real.exp x ≤ realTail x 1 100 + 1 / 2 ^ 190 := by
  have sum : realTail x 1 100 = ∑ m ∈ Finset.range 101, x ^ m / m.factorial := by
    have near := expNear_realTail x 0 100
    rwa [Real.expNear_zero, zero_add, zero_add] at near
  have magnitude : ‖(x : ℂ)‖ = x := by rw [Complex.norm_real, Real.norm_of_nonneg nonneg]
  have small : ‖(x : ℂ)‖ / Nat.succ 101 ≤ 1 / 2 := by
    rw [magnitude]
    norm_num
    linarith
  have remainder := Complex.exp_bound' small
  rw [sum]
  refine ⟨Real.sum_le_exp_of_nonneg nonneg 101, ?_⟩
  have cast : Complex.exp x - ∑ m ∈ Finset.range 101, (x : ℂ) ^ m / m.factorial =
      ((Real.exp x - ∑ m ∈ Finset.range 101, x ^ m / m.factorial : ℝ) : ℂ) := by
    push_cast
    rfl
  rw [cast, Complex.norm_real, magnitude] at remainder
  have power : x ^ 101 ≤ 10 ^ 101 := pow_le_pow_left₀ nonneg le 101
  have negligible : (10 : ℝ) ^ 101 / (101).factorial * 2 ≤ 1 / 2 ^ 190 := by
    norm_num [Nat.factorial]
  have bounded : x ^ 101 / (101).factorial * 2 ≤ 10 ^ 101 / (101).factorial * 2 := by gcongr
  have above := (abs_le.mp remainder).2
  linarith

/-- Flooring takes at most one unit of the first term, and as much of every other. -/
theorem tailAt_between (nonneg : 0 ≤ v) (n terms : Nat) :
    (2 ^ seriesBits - 1) * realTail v n terms ≤ tailAt v n terms ∧
      (tailAt v n terms : ℝ) ≤ 2 ^ seriesBits * realTail v n terms := by
  have unit : (1 : ℝ) ≤ 2 ^ seriesBits := one_le_pow₀ one_le_two
  induction terms generalizing n with
  | zero => constructor <;> simp [tailAt, realTail]
  | succ terms ih =>
    obtain ⟨low, high⟩ := ih (n + 1)
    have ratio : (0 : ℝ) ≤ v / n := div_nonneg (by exact_mod_cast nonneg) n.cast_nonneg
    have quotient_nonneg : 0 ≤ tailAt v (n + 1) terms * v / n := by positivity
    have floor_le : (⌊tailAt v (n + 1) terms * v / n⌋₊ : ℝ) ≤
        v / n * tailAt v (n + 1) terms := by
      have floored := Nat.floor_le quotient_nonneg
      calc (⌊tailAt v (n + 1) terms * v / n⌋₊ : ℝ)
          ≤ ((tailAt v (n + 1) terms * v / n : ℚ) : ℝ) := by exact_mod_cast floored
        _ = v / n * tailAt v (n + 1) terms := by push_cast; ring
    have lt_floor : v / n * tailAt v (n + 1) terms - 1 ≤
        (⌊tailAt v (n + 1) terms * v / n⌋₊ : ℝ) := by
      have floored := (Nat.lt_floor_add_one (tailAt v (n + 1) terms * v / n)).le
      have cast : ((tailAt v (n + 1) terms * v / n : ℚ) : ℝ) ≤
          ⌊tailAt v (n + 1) terms * v / n⌋₊ + 1 := by exact_mod_cast floored
      push_cast at cast
      linarith [cast, show (tailAt v (n + 1) terms * v / n : ℝ) =
        v / n * tailAt v (n + 1) terms by ring]
    have scaled_low := mul_le_mul_of_nonneg_left low ratio
    have scaled_high := mul_le_mul_of_nonneg_left high ratio
    rw [tailAt, realTail]
    push_cast
    constructor <;> linarith

/-- The series of a number that is not negative. -/
theorem tailAt_near_exp (nonneg : 0 ≤ v) (le : v ≤ 10) :
    (tailAt v 1 100 : ℝ) / 2 ^ seriesBits ≤ Real.exp v ∧
      Real.exp v ≤ tailAt v 1 100 / 2 ^ seriesBits * (1 + 1 / 10 ^ 55) := by
  have scale : (0 : ℝ) < 2 ^ seriesBits := pow_pos two_pos _
  have x_nonneg : (0 : ℝ) ≤ v := by exact_mod_cast nonneg
  obtain ⟨sum_le, le_sum⟩ := realTail_between x_nonneg (by exact_mod_cast le)
  obtain ⟨low, high⟩ := tailAt_between nonneg 1 100
  have whole : (1 : ℝ) ≤ tailAt v 1 100 / 2 ^ seriesBits := by
    rw [le_div_iff₀ scale, one_mul]
    exact_mod_cast two_pow_le_tailAt v 1 100
  have upper : (tailAt v 1 100 : ℝ) / 2 ^ seriesBits ≤ realTail v 1 100 :=
    (div_le_iff₀' scale).mpr high
  have lower : realTail v 1 100 * (1 - 1 / 2 ^ seriesBits) ≤ tailAt v 1 100 / 2 ^ seriesBits := by
    rw [le_div_iff₀ scale]
    calc realTail v 1 100 * (1 - 1 / 2 ^ seriesBits) * 2 ^ seriesBits
        = (2 ^ seriesBits - 1) * realTail v 1 100 := by field_simp
      _ ≤ tailAt v 1 100 := low
  refine ⟨upper.trans sum_le, ?_⟩
  generalize (tailAt v 1 100 : ℝ) / 2 ^ seriesBits = s at *
  rw [seriesBits] at lower
  norm_num at lower le_sum ⊢
  linarith

theorem exp_between (small : |x| ≤ 10) : 1 / 10 ^ 5 ≤ Real.exp x ∧ Real.exp x ≤ 10 ^ 5 := by
  obtain ⟨low, high⟩ := abs_le.mp small
  have ten : Real.exp 10 ≤ 10 ^ 5 := by
    have power : Real.exp 10 = Real.exp 1 ^ 10 := by
      rw [← Real.exp_nat_mul]
      norm_num
    rw [power]
    have tenth := pow_le_pow_left₀ (Real.exp_pos 1).le Real.exp_one_lt_d9.le 10
    exact tenth.trans (by norm_num)
  have least := Real.exp_le_exp.mpr low
  rw [Real.exp_neg] at least
  have inverse := inv_anti₀ (Real.exp_pos 10) ten
  rw [← one_div] at inverse
  exact ⟨inverse.trans least, (Real.exp_le_exp.mpr high).trans ten⟩

/-- The scaled exponential of a number up to ten has forty correct digits. -/
theorem abs_scaledExp_sub_le (small : |v| ≤ 10) :
    |(scaledExp v : ℝ) / 2 ^ seriesBits - Real.exp v| ≤ Real.exp v / 10 ^ 40 := by
  have scale : (0 : ℝ) < 2 ^ seriesBits := pow_pos two_pos _
  have exp_pos := Real.exp_pos v
  obtain ⟨low, high⟩ := abs_le.mp small
  rw [scaledExp]
  split_ifs with nonneg
  · obtain ⟨above, below⟩ := tailAt_near_exp nonneg high
    rw [abs_le]
    constructor <;> linarith
  · -- the reciprocal of the exponential of the opposite number, floored
    obtain ⟨above, below⟩ := tailAt_near_exp (v := -v) (by linarith) (by linarith)
    have opposite : Real.exp ((-v : ℚ) : ℝ) = (Real.exp v)⁻¹ := by
      rw [Rat.cast_neg, Real.exp_neg]
    have tail_pos : (0 : ℝ) < tailAt (-v) 1 100 := by
      exact_mod_cast (Nat.two_pow_pos _).trans_le (two_pow_le_tailAt (-v) 1 100)
    rw [opposite] at above below
    set s := (tailAt (-v) 1 100 : ℝ) / 2 ^ seriesBits with s_eq
    have s_pos : 0 < s := div_pos tail_pos scale
    have inverse : (2 : ℝ) ^ (2 * seriesBits) / tailAt (-v) 1 100 = s⁻¹ * 2 ^ seriesBits := by
      rw [s_eq, two_mul, pow_add]
      field_simp
    have floored : (2 ^ (2 * seriesBits) / tailAt (-v) 1 100 : ℕ) =
        ⌊s⁻¹ * 2 ^ seriesBits⌋₊ := by
      rw [← inverse, ← Nat.floor_div_eq_div (K := ℝ)]
      push_cast
      rfl
    have floor_le : (⌊s⁻¹ * 2 ^ seriesBits⌋₊ : ℝ) / 2 ^ seriesBits ≤ s⁻¹ :=
      (div_le_iff₀ scale).mpr (Nat.floor_le (by positivity))
    have lt_floor : s⁻¹ < (⌊s⁻¹ * 2 ^ seriesBits⌋₊ : ℝ) / 2 ^ seriesBits + 1 / 2 ^ seriesBits := by
      rw [← add_div, lt_div_iff₀ scale]
      exact Nat.lt_floor_add_one _
    have le_inverse : Real.exp v ≤ s⁻¹ := (le_inv_comm₀ s_pos exp_pos).mp above
    have inverse_le : s⁻¹ ≤ Real.exp v * (1 + 1 / 10 ^ 55) := by
      rw [inv_le_iff_one_le_mul₀ s_pos]
      have scaled := mul_le_mul_of_nonneg_left below exp_pos.le
      rw [mul_inv_cancel₀ exp_pos.ne'] at scaled
      linarith
    have least := (exp_between (x := v) (by exact_mod_cast small)).1
    rw [floored]
    generalize (⌊s⁻¹ * 2 ^ seriesBits⌋₊ : ℝ) / 2 ^ seriesBits = q at *
    rw [seriesBits] at lt_floor
    norm_num at lt_floor inverse_le least ⊢
    rw [abs_le]
    constructor <;> linarith

end FixedPointNet.Exponential
