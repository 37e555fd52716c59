import FixedPointNet.Proofs.Binary64.Millionths
import FixedPointNet.Proofs.Settings

/-!
# Decimal grids

A start, a stop and a step of six decimal places span a grid of decimals, and so do the floats that
are read for them. The number of steps is computed with an error below the slack that is added to
it, and both together stay below what separates a quotient of such decimals from the next integer.
At every position, the error of the product and of the sum is far below the distance of two
multiples of 1e-12, so that snapping removes it.
-/

namespace FixedPointNet.Settings

open Binary64 (value? level IsMillionths)

/-- The start, the stop and the step are the floats nearest to decimals of six places. -/
structure DecimalGrid (s : Settings) (a b d : Nat) : Prop where
  start : IsMillionths a s.pruneStart
  stop : IsMillionths b s.pruneStop
  step : IsMillionths d s.pruneStep
  ordered : a ≤ b
  below_one : b < 10 ^ 6
  step_pos : 1 ≤ d
  step_le : d ≤ 10 ^ 9

variable {s : Settings} {a b d k n : Nat}

/-- Snapping moves a float to the decimal that it is near to. -/
theorem isMillionths_snap {x : Float} {v : ℚ} (value : value? x = some v) (nonneg : 0 ≤ v)
    (near : |v - n / 10 ^ 6| ≤ 1 / 10 ^ 14) (small : n ≤ 10 ^ 6) : IsMillionths n (snap x) := by
  obtain ⟨low, high⟩ := abs_le.mp near
  have n_le := Binary64.millionths_le small
  push_cast at n_le
  have scale : value? snapScale = some (10 ^ 12) := by decide +kernel
  obtain ⟨scaled, product, -, error⟩ := Binary64.exists_value?_of_level
    (Binary64.level_mul value scale) (by positivity) (by linarith)
  obtain ⟨error_low, error_high⟩ := abs_le.mp error
  have nearest : Binary64.halfAway scaled = (n * 10 ^ 6 : ℕ) := by
    apply Binary64.halfAway_eq
    rw [abs_lt]
    push_cast
    constructor <;> linarith
  have whole : value? (Binary64.roundHalfAway (x * snapScale)) = some ((n * 10 ^ 6 : ℕ) : ℚ) := by
    have exact := Binary64.value?_ofNat_of_le (show n * 10 ^ 6 ≤ 2 ^ 53 by omega)
    apply Binary64.value?_of_level _ (Binary64.abs_lt_limit exact)
    rw [Binary64.level_roundHalfAway, Binary64.level_of_value? product,
      Binary64.lift_of_abs_lt _ (Binary64.abs_lt_limit product), nearest, Int.cast_natCast,
      Binary64.rounded_of_value? exact]
  rw [IsMillionths, snap, Binary64.level_div whole scale (by positivity)]
  push_cast
  congr 2
  ring

/-- The quotient of two approximate numbers, for a divisor that is not much less than the error. -/
theorem abs_quotient_sub_le {p q y z : ℚ} (nonneg : 0 ≤ y) (le_one : y ≤ 1)
    (least : 1 / 10 ^ 6 ≤ z) (p_near : |p - y| ≤ 4 / 2 ^ 53)
    (q_near : |q - z| ≤ z / 2 ^ 53 + 1 / 2 ^ 200) : |p / q - y / z| ≤ 6 / 10 ^ 10 := by
  have z_pos : 0 < z := by linarith
  have q_low := (abs_le.mp q_near).1
  have q_pos : 0 < q := by linarith
  have quotient_nonneg : 0 ≤ y / z := by positivity
  have quotient_le : y / z ≤ 10 ^ 6 := by
    rw [div_le_iff₀ z_pos]
    linarith
  have product : y / z * z = y := div_mul_cancel₀ y z_pos.ne'
  have divisor := mul_le_mul_of_nonneg_left q_near quotient_nonneg
  have remainder : |p - y / z * q| ≤ 4 / 2 ^ 53 + y / z * |q - z| := by
    have parts : p - y / z * q = (p - y) - y / z * (q - z) := by
      rw [mul_sub, product]
      ring
    have triangle := abs_sub (p - y) (y / z * (q - z))
    rw [abs_mul, abs_of_nonneg quotient_nonneg] at triangle
    rw [parts]
    linarith
  have difference : p / q - y / z = (p - y / z * q) / q := by
    rw [sub_div, mul_div_cancel_right₀ _ q_pos.ne']
  rw [difference, abs_div, abs_of_pos q_pos, div_le_iff₀ q_pos]
  linarith

/-- A quotient of few millionths keeps a distance from the integers above it. -/
theorem quotient_add_le (small : n < 10 ^ 6) (pos : 1 ≤ d) :
    (n / d : ℚ) + 1 / 10 ^ 8 ≤ (n / d : ℕ) + 1 := by
  have d_pos : (0 : ℚ) < d := by exact_mod_cast pos
  rcases le_or_gt d (10 ^ 8) with short | long
  · have next : ((n + 1 : ℕ) : ℚ) ≤ (d * (n / d + 1) : ℕ) :=
      Nat.cast_le.mpr (Nat.lt_mul_div_succ n pos)
    have unit : 1 / 10 ^ 8 ≤ (1 / d : ℚ) :=
      one_div_le_one_div_of_le d_pos (by exact_mod_cast short)
    push_cast at next
    calc (n / d : ℚ) + 1 / 10 ^ 8 ≤ n / d + 1 / d := by linarith
      _ = (n + 1) / d := (add_div _ _ _).symm
      _ ≤ (n / d : ℕ) + 1 := (div_le_iff₀' d_pos).mpr next
  · -- so long a step is longer than every grid
    have n_le : (n : ℚ) ≤ 10 ^ 6 := by exact_mod_cast small.le
    have d_ge : (10 ^ 8 : ℚ) ≤ d := by exact_mod_cast long.le
    have share : (n / d : ℚ) ≤ 1 / 100 := by
      rw [div_le_iff₀ d_pos]
      linarith
    have whole : (0 : ℚ) ≤ (n / d : ℕ) := Nat.cast_nonneg _
    linarith

namespace DecimalGrid

theorem level_step_pos (grid : s.DecimalGrid a b d) : (0 : ℚ) < level s.pruneStep := by
  obtain ⟨w, step, -, near⟩ := grid.step.exists_value? grid.step_le
  have least := Binary64.millionths_le grid.step_pos
  rw [Binary64.level_of_value? step, WithBot.coe_lt_coe]
  rw [abs_le] at near
  push_cast at least
  linarith

theorem level_start_le_level_stop (grid : s.DecimalGrid a b d) :
    level s.pruneStart ≤ level s.pruneStop := by
  rw [grid.start, grid.stop, WithBot.coe_le_coe]
  exact Rounding.rounded_mono .binary64 (Binary64.millionths_le grid.ordered)

/-- The length of the grid, as it is computed. -/
theorem exists_value?_span (grid : s.DecimalGrid a b d) :
    ∃ p, value? (s.pruneStop - s.pruneStart) = some p ∧ 0 ≤ p ∧
      |p - ((b - a : ℕ) / 10 ^ 6 : ℚ)| ≤ 4 / 2 ^ 53 := by
  have below_one := grid.below_one
  have ordered := grid.ordered
  obtain ⟨u, start, u_nonneg, u_near⟩ := grid.start.exists_value? (by omega)
  obtain ⟨v, stop, -, v_near⟩ := grid.stop.exists_value? (by omega)
  have u_le := grid.level_start_le_level_stop
  rw [Binary64.level_of_value? start, Binary64.level_of_value? stop, WithBot.coe_le_coe] at u_le
  have b_le := Binary64.millionths_le below_one.le
  have a_le := Binary64.millionths_le ordered
  push_cast at b_le
  rw [abs_le] at u_near v_near
  obtain ⟨p, span, p_nonneg, error⟩ := Binary64.exists_value?_of_level
    (Binary64.level_sub stop start) (sub_nonneg.mpr u_le) (by linarith)
  refine ⟨p, span, p_nonneg, ?_⟩
  rw [Nat.cast_sub ordered, sub_div]
  rw [abs_le] at error ⊢
  constructor <;> linarith

/-- The length of the grid in steps, as it is computed before the slack is added. -/
theorem exists_value?_steps (grid : s.DecimalGrid a b d) :
    ∃ q, value? ((s.pruneStop - s.pruneStart) / s.pruneStep) = some q ∧ 0 ≤ q ∧ q ≤ 10 ^ 6 + 1 ∧
      |q - ((b - a : ℕ) / d : ℚ)| ≤ 8 / 10 ^ 10 := by
  have below_one := grid.below_one
  obtain ⟨p, span, p_nonneg, p_near⟩ := grid.exists_value?_span
  obtain ⟨w, step, -, w_near⟩ := grid.step.exists_value? grid.step_le
  have w_pos := grid.level_step_pos
  rw [Binary64.level_of_value? step, WithBot.coe_lt_coe] at w_pos
  have least := Binary64.millionths_le grid.step_pos
  have length_le := Binary64.millionths_le (show b - a ≤ 10 ^ 6 by omega)
  have length_nonneg : (0 : ℚ) ≤ (b - a : ℕ) / 10 ^ 6 := by positivity
  rw [Nat.cast_one] at least
  push_cast at length_le
  have near := abs_quotient_sub_le length_nonneg (by linarith) least p_near w_near
  have units : ((b - a : ℕ) / 10 ^ 6 / (d / 10 ^ 6) : ℚ) = (b - a : ℕ) / d :=
    div_div_div_cancel_right₀ (by positivity) _ _
  have steps_le : ((b - a : ℕ) / d : ℚ) ≤ 10 ^ 6 := by
    have one_le : (1 : ℚ) ≤ d := by exact_mod_cast grid.step_pos
    have length_le : ((b - a : ℕ) : ℚ) ≤ 10 ^ 6 := by exact_mod_cast show b - a ≤ 10 ^ 6 by omega
    exact (div_le_self (Nat.cast_nonneg _) one_le).trans length_le
  rw [units, abs_le] at near
  obtain ⟨q, steps, q_nonneg, error⟩ := Binary64.exists_value?_of_level
    (Binary64.level_div span step w_pos.ne') (div_nonneg p_nonneg w_pos.le) (by linarith)
  rw [abs_le] at error
  refine ⟨q, steps, q_nonneg, by linarith, ?_⟩
  rw [abs_le]
  constructor <;> linarith

/-- No step is lost to rounding, and the slack adds none. -/
theorem stepCount_eq (grid : s.DecimalGrid a b d) : s.stepCount = (b - a) / d := by
  have below_one := grid.below_one
  obtain ⟨q, steps, q_nonneg, q_le, q_near⟩ := grid.exists_value?_steps
  have slack : value? stepSlack = some (4835703278458517 / 2 ^ 82) := by decide +kernel
  obtain ⟨t, sum, -, error⟩ := Binary64.exists_value?_of_level (Binary64.level_add steps slack)
    (by positivity) (by linarith)
  rw [abs_le] at q_near error
  have whole : (((b - a) / d : ℕ) : ℚ) ≤ (b - a : ℕ) / d := Nat.cast_div_le
  have next := quotient_add_le (show b - a < 10 ^ 6 by omega) grid.step_pos
  have count_le : (b - a) / d ≤ 10 ^ 6 := (Nat.div_le_self _ _).trans (by omega)
  apply Binary64.toNat_floorClamp_eq sum
  · linarith
  · linarith
  · omega

theorem add_mul_le (grid : s.DecimalGrid a b d) (le : k ≤ (b - a) / d) : a + k * d ≤ b := by
  have steps := Nat.mul_le_of_le_div d k (b - a) le
  have ordered := grid.ordered
  omega

/-- A multiple of the step, as it is computed. -/
theorem exists_value?_offset (grid : s.DecimalGrid a b d) (le : k ≤ (b - a) / d) :
    ∃ v, value? (Binary64.ofNat k * s.pruneStep) = some v ∧ 0 ≤ v ∧
      |v - (k * d : ℕ) / 10 ^ 6| ≤ 3 / 2 ^ 53 := by
  have below_one := grid.below_one
  have add_le := grid.add_mul_le le
  have k_le : k ≤ 10 ^ 6 := (le.trans (Nat.div_le_self _ _)).trans (by omega)
  have offset_le := Binary64.millionths_le (show k * d ≤ 10 ^ 6 by omega)
  have k_nonneg : (0 : ℚ) ≤ k := k.cast_nonneg
  have k_cast_le : (k : ℚ) ≤ 10 ^ 6 := by exact_mod_cast k_le
  obtain ⟨w, step, w_nonneg, near⟩ := grid.step.exists_value? grid.step_le
  rw [abs_le] at near
  have low := mul_le_mul_of_nonneg_left near.1 k_nonneg
  have high := mul_le_mul_of_nonneg_left near.2 k_nonneg
  push_cast at offset_le ⊢
  obtain ⟨v, offset, v_nonneg, error⟩ := Binary64.exists_value?_of_level
    (Binary64.level_mul (Binary64.value?_ofNat_of_le (show k ≤ 2 ^ 53 by omega)) step)
    (mul_nonneg k_nonneg w_nonneg) (by linarith)
  refine ⟨v, offset, v_nonneg, ?_⟩
  rw [abs_le] at error ⊢
  constructor <;> linarith

theorem isMillionths_ratioAt (grid : s.DecimalGrid a b d) (le : k ≤ (b - a) / d) :
    IsMillionths (a + k * d) (s.ratioAt k) := by
  have below_one := grid.below_one
  have add_le := grid.add_mul_le le
  have point_le := Binary64.millionths_le (show a + k * d ≤ 10 ^ 6 by omega)
  obtain ⟨u, start, u_nonneg, u_near⟩ := grid.start.exists_value? (by omega)
  obtain ⟨v, offset, v_nonneg, v_near⟩ := grid.exists_value?_offset le
  rw [abs_le] at u_near v_near
  push_cast at point_le v_near
  obtain ⟨t, sum, t_nonneg, error⟩ := Binary64.exists_value?_of_level
    (Binary64.level_add start offset) (add_nonneg u_nonneg v_nonneg) (by linarith)
  refine isMillionths_snap sum t_nonneg ?_ (by omega)
  rw [abs_le] at error ⊢
  push_cast
  constructor <;> linarith

/-- The ratios, from the first decimal of the grid to the last. -/
theorem ratios_eq (grid : s.DecimalGrid a b d) :
    s.ratios = (List.range ((b - a) / d + 1)).map s.ratioAt := by
  rw [Settings.ratios_eq grid.level_step_pos grid.level_start_le_level_stop, grid.stepCount_eq]

theorem getElem?_ratios_iff (grid : s.DecimalGrid a b d) {ratio : Float} :
    s.ratios[k]? = some ratio ↔ k ≤ (b - a) / d ∧ s.ratioAt k = ratio := by
  simp [grid.ratios_eq, List.getElem?_eq_some_iff]

theorem mem_ratios_iff (grid : s.DecimalGrid a b d) {ratio : Float} :
    ratio ∈ s.ratios ↔ ∃ k ≤ (b - a) / d, s.ratioAt k = ratio := by
  simp [grid.ratios_eq]

theorem pairwise_ratios (grid : s.DecimalGrid a b d) : s.ratios.Pairwise (· < ·) := by
  have below_one := grid.below_one
  rw [grid.ratios_eq, List.pairwise_map]
  refine List.pairwise_lt_range.imp_of_mem ?_
  intro i j at_i at_j less
  rw [List.mem_range, Nat.lt_succ_iff] at at_i at_j
  have le := grid.add_mul_le at_j
  have further := Nat.mul_lt_mul_of_pos_right less grid.step_pos
  rw [(grid.isMillionths_ratioAt at_i).lt_iff (grid.isMillionths_ratioAt at_j) (by omega)]
  omega

theorem head_ratios (grid : s.DecimalGrid a b d) :
    ∃ first, s.ratios.head? = some first ∧ (first == s.pruneStart) = true := by
  have below_one := grid.below_one
  have ordered := grid.ordered
  have first := grid.isMillionths_ratioAt (Nat.zero_le _)
  refine ⟨s.ratioAt 0, by rw [grid.ratios_eq, List.range_succ_eq_map]; rfl, ?_⟩
  rw [first.beq_iff grid.start (by omega) (by omega)]
  omega

theorem ratios_between (grid : s.DecimalGrid a b d) :
    ∀ ratio ∈ s.ratios, s.pruneStart ≤ ratio ∧ ratio ≤ s.pruneStop := by
  have below_one := grid.below_one
  intro ratio member
  obtain ⟨k, k_le, rfl⟩ := grid.mem_ratios_iff.mp member
  have point := grid.isMillionths_ratioAt k_le
  have le := grid.add_mul_le k_le
  rw [grid.start.le_iff point (by omega), point.le_iff grid.stop (by omega)]
  omega

theorem stop_mem_iff (grid : s.DecimalGrid a b d) :
    (∃ ratio ∈ s.ratios, (ratio == s.pruneStop) = true) ↔ d ∣ b - a := by
  have below_one := grid.below_one
  have ordered := grid.ordered
  have reaches_iff {k : Nat} (k_le : k ≤ (b - a) / d) :
      (s.ratioAt k == s.pruneStop) = true ↔ a + k * d = b := by
    have le := grid.add_mul_le k_le
    exact (grid.isMillionths_ratioAt k_le).beq_iff grid.stop (by omega) (by omega)
  constructor
  · rintro ⟨ratio, member, reached⟩
    obtain ⟨k, k_le, rfl⟩ := grid.mem_ratios_iff.mp member
    rw [reaches_iff k_le] at reached
    exact Dvd.intro_left k (by omega)
  · intro divides
    have whole := Nat.div_mul_cancel divides
    refine ⟨_, grid.mem_ratios_iff.mpr ⟨_, le_rfl, rfl⟩, ?_⟩
    rw [reaches_iff le_rfl]
    omega

end DecimalGrid

theorem decimalGrid_default : default.DecimalGrid 0 500000 20000 where
  start := Binary64.isMillionths_of_eq_div (by decide) (by decide +kernel)
  stop := Binary64.isMillionths_of_eq_div (by decide) (by decide +kernel)
  step := Binary64.isMillionths_of_eq_div (by decide) (by decide +kernel)
  ordered := by decide
  below_one := by decide
  step_pos := by decide
  step_le := by decide

/-- A grid of decimals has as many ratios as whole steps fit between its ends, and one more. The
    ratios are the floats nearest to the decimals, so they increase from the start, do not pass the
    stop, and reach it exactly if the step divides the distance of the ends. -/
theorem ratios_of_decimalGrid (grid : s.DecimalGrid a b d) :
    s.ratios.length = (b - a) / d + 1 ∧
    (∀ (k : Nat) (h : k < s.ratios.length), IsMillionths (a + k * d) s.ratios[k]) ∧
    s.ratios.Pairwise (· < ·) ∧
    (∃ first, s.ratios.head? = some first ∧ (first == s.pruneStart) = true) ∧
    (∀ ratio ∈ s.ratios, s.pruneStart ≤ ratio ∧ ratio ≤ s.pruneStop) ∧
    ((∃ ratio ∈ s.ratios, (ratio == s.pruneStop) = true) ↔ d ∣ b - a) := by
  have length : s.ratios.length = (b - a) / d + 1 := by simp [grid.ratios_eq]
  refine ⟨length, ?_, grid.pairwise_ratios, grid.head_ratios, grid.ratios_between,
    grid.stop_mem_iff⟩
  intro k below
  obtain ⟨le, at_k⟩ := grid.getElem?_ratios_iff.mp (List.getElem?_eq_getElem below)
  rw [← at_k]
  exact grid.isMillionths_ratioAt le

/-- The default grid has twenty-six ratios and reaches its stop. -/
theorem ratios_of_decimalGrid_default :
    default.DecimalGrid 0 500000 20000 ∧ default.ratios.length = 26 ∧
      (∀ (k : Nat) (h : k < default.ratios.length),
        IsMillionths (0 + k * 20000) default.ratios[k]) ∧
      ∃ ratio ∈ default.ratios, (ratio == default.pruneStop) = true := by
  obtain ⟨length, points, -, -, -, stop⟩ := ratios_of_decimalGrid decimalGrid_default
  exact ⟨decimalGrid_default, length, points, stop.mpr (by decide)⟩

end FixedPointNet.Settings
