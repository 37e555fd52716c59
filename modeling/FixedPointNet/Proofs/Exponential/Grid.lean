import FixedPointNet.Proofs.Exponential.Table

/-!
# How near the look-up comes

The two entries that are multiplied stand for the exponential of a whole number plus a number of
thousandths. The look-up takes the thousandth nearest to the fraction, so it misses the argument by
at most half a step, up to rounding. The exception is the upper end of a cell: the fraction is
limited to the greatest one in the table, and where the next whole number would be nearer, the
look-up stays below and misses the argument by up to a whole step.
-/

namespace FixedPointNet.Exponential

open Binary64 (value? level rounded limit halfAway roundHalfAway)

variable {x : Float} {f q v : ℚ}

/-- The number for whose exponential the two entries stand. -/
def gridPoint (x : Float) : ℚ :=
  wholePart (limited x) + ((fractionIndex (limited x) : ℚ) - 999) / 1000

theorem abs_greatestArgument_sub_le : |greatestArgument - 9999 / 1000| ≤ 1 / 10 ^ 15 := by
  norm_num [greatestArgument, abs_le]

theorem abs_greatestFraction_sub_le : |greatestFraction - 999 / 1000| ≤ 1 / 10 ^ 15 := by
  norm_num [greatestFraction, abs_le]

theorem abs_fractionDistance_sub_le : |fractionDistance - 1 / 1000| ≤ 1 / 10 ^ 18 := by
  norm_num [fractionDistance, abs_le]

theorem abs_halfAway_sub_le (nonneg : 0 ≤ q) : |(halfAway q : ℚ) - q| ≤ 1 / 2 := by
  have low := Int.floor_le (q + 1 / 2)
  have high := Int.lt_floor_add_one (q + 1 / 2)
  rw [halfAway, if_pos nonneg, abs_le]
  constructor <;> linarith

/-- The number of steps to a fraction, before it is rounded to a whole number. -/
theorem exists_value?_steps (at_f : value? (fractionPart x) = some f)
    (inside : |f| ≤ greatestFraction) :
    ∃ q, value? ((fractionPart x + fractionLimit) / fractionStep) = some q ∧ 0 ≤ q ∧
      |q / 1000 - (f + 999 / 1000)| ≤ 1 / 10 ^ 14 := by
  obtain ⟨above, below⟩ := abs_le.mp inside
  obtain ⟨limit_low, limit_high⟩ := abs_le.mp abs_greatestFraction_sub_le
  obtain ⟨step_low, step_high⟩ := abs_le.mp abs_fractionDistance_sub_le
  have step_pos := fractionDistance_pos
  have sum_nonneg : 0 ≤ f + greatestFraction := by linarith
  have sum_near := Binary64.abs_rounded_sub_le_of_abs_le
    (show |f + greatestFraction| ≤ 2 by rw [abs_of_nonneg sum_nonneg]; linarith)
  have at_sum := Binary64.value?_of_abs_le (Binary64.level_add at_f value?_fractionLimit)
    (by rw [abs_of_nonneg sum_nonneg]; linarith)
  have rounded_nonneg := Binary64.rounded_nonneg sum_nonneg
  obtain ⟨sum_low, sum_high⟩ := abs_le.mp sum_near
  have quotient_nonneg := div_nonneg rounded_nonneg step_pos.le
  have quotient_le : rounded (f + greatestFraction) / fractionDistance ≤ 2001 := by
    rw [div_le_iff₀ step_pos]
    linarith
  obtain ⟨q, at_q, q_nonneg, q_near⟩ := Binary64.exists_value?_of_level
    (Binary64.level_div at_sum value?_fractionStep step_pos.ne') quotient_nonneg (by linarith)
  have product := div_mul_cancel₀ (rounded (f + greatestFraction)) step_pos.ne'
  generalize rounded (f + greatestFraction) / fractionDistance = t at *
  -- a thousandth and the step differ by so little that a quotient below 2001 does not show it
  have scaled := mul_le_mul_of_nonneg_left step_high quotient_nonneg
  have scaled' := mul_le_mul_of_nonneg_left step_low quotient_nonneg
  obtain ⟨q_low, q_high⟩ := abs_le.mp q_near
  refine ⟨q, at_q, q_nonneg, ?_⟩
  rw [abs_le]
  constructor <;> linarith

/-- The look-up takes the position of the nearest thousandth. -/
theorem abs_fractionIndex_sub_le (at_f : value? (fractionPart x) = some f)
    (inside : |f| ≤ greatestFraction) :
    |((fractionIndex x : ℚ) - 999) / 1000 - f| ≤ 1 / 2000 + 1 / 10 ^ 14 := by
  obtain ⟨q, at_q, nonneg, near⟩ := exists_value?_steps at_f inside
  obtain ⟨low, high⟩ := abs_le.mp near
  obtain ⟨half_low, half_high⟩ := abs_le.mp (abs_halfAway_sub_le nonneg)
  have f_le := (le_abs_self f).trans inside
  have limit_high := (abs_le.mp abs_greatestFraction_sub_le).2
  have count_nonneg : 0 ≤ halfAway q := by
    have mono := Binary64.halfAway_le_halfAway nonneg
    rwa [← Int.cast_zero, Binary64.halfAway_intCast] at mono
  have count_le : halfAway q ≤ 1998 := by
    have last : halfAway (1998 + 1 / 4) = 1998 := Binary64.halfAway_eq (by norm_num [abs_lt])
    rw [← last]
    exact Binary64.halfAway_le_halfAway (by linarith)
  have at_count : value? (roundHalfAway ((fractionPart x + fractionLimit) / fractionStep)) =
      some (halfAway q : ℚ) := by
    have small : |halfAway q| ≤ 2 ^ 53 := by
      rw [abs_of_nonneg count_nonneg]
      omega
    have magnitude : |(halfAway q : ℚ)| ≤ 2 ^ 53 := by exact_mod_cast small
    have rounds := Binary64.level_roundHalfAway ((fractionPart x + fractionLimit) / fractionStep)
    rw [Binary64.level_of_value? at_q, Binary64.lift_of_abs_lt _ (Binary64.abs_lt_limit at_q)]
      at rounds
    exact Binary64.value?_of_representable rounds (Binary64.representable_intCast small)
      (Binary64.lt_limit_of_le_two_pow (magnitude.trans (by norm_num)))
  have position : (fractionIndex x : ℤ) = halfAway q := by
    rw [fractionIndex, Binary64.floorClamp_of_value _ _ at_count, Int.floor_intCast,
      fractionEntries]
    omega
  have counted : (fractionIndex x : ℚ) = halfAway q := by exact_mod_cast position
  rw [counted, abs_le]
  constructor <;> linarith

/-- Up to the greatest fraction of the table the look-up is off by at most half a step; beyond it,
    the look-up takes the greatest fraction. -/
theorem fractionIndex_cases (at_v : value? x = some v)
    (low : -(999 / 1000 + 1 / 10 ^ 14) ≤ v - wholePart x) (high : v - wholePart x < 1) :
    (v - wholePart x ≤ 999 / 1000 ∧
      |((fractionIndex x : ℚ) - 999) / 1000 - (v - wholePart x)| ≤ 1 / 2000 + 1 / 10 ^ 13) ∨
    (999 / 1000 < v - wholePart x ∧ fractionIndex x = 1998) := by
  have at_f := value?_fractionPart at_v
  generalize v - wholePart x = r at *
  obtain ⟨limit_low, limit_high⟩ := abs_le.mp abs_greatestFraction_sub_le
  have near := Binary64.abs_rounded_sub_le_of_abs_le
    (show |r| ≤ 2 by rw [abs_le]; constructor <;> linarith)
  obtain ⟨near_low, near_high⟩ := abs_le.mp near
  have ordered : -greatestFraction ≤ greatestFraction := neg_le_self greatestFraction_pos.le
  have inside : |max (-greatestFraction) (min greatestFraction (rounded r))| ≤ greatestFraction :=
    abs_le.mpr ⟨le_max_left _ _, max_le ordered (min_le_left _ _)⟩
  obtain ⟨index_low, index_high⟩ := abs_le.mp (abs_fractionIndex_sub_le at_f inside)
  generalize limited_eq : max (-greatestFraction) (min greatestFraction (rounded r)) = f at *
  by_cases beyond : 999 / 1000 < r
  · right
    refine ⟨beyond, le_antisymm (fractionIndex_le x) ?_⟩
    have f_high : min greatestFraction (rounded r) ≤ f := limited_eq ▸ le_max_right _ _
    have least : 999 / 1000 - 1 / 10 ^ 14 ≤ min greatestFraction (rounded r) :=
      le_min (by linarith) (by linarith)
    have position : ((1997 : ℕ) : ℚ) < fractionIndex x := by
      push_cast
      linarith
    exact_mod_cast position
  · left
    have le : r ≤ 999 / 1000 := not_lt.mp beyond
    have f_low : r - 1 / 10 ^ 14 ≤ f := by
      rw [← limited_eq]
      exact le_max_of_le_right (le_min (by linarith) (by linarith))
    have f_high : f ≤ r + 2 / 10 ^ 14 := by
      rw [← limited_eq]
      exact max_le (by linarith) (min_le_of_right_le (by linarith))
    refine ⟨le, ?_⟩
    rw [abs_le]
    constructor <;> linarith

/-- Inside the range of the tables nothing is limited. -/
theorem value?_limited (low : -argumentLimit ≤ x) (high : x ≤ argumentLimit) :
    ∃ v, value? x = some v ∧ value? (limited x) = some v ∧ |v| ≤ greatestArgument := by
  have at_least := Binary64.value?_neg value?_argumentLimit
  obtain ⟨-, low⟩ := Binary64.le_iff.mp low
  obtain ⟨number, high⟩ := Binary64.le_iff.mp high
  rw [Binary64.level_of_value? at_least] at low
  rw [Binary64.level_of_value? value?_argumentLimit] at high
  obtain ⟨u, at_u, limited_eq⟩ := exists_value?_limited number
  rw [min_eq_right high, max_eq_right low] at limited_eq
  rw [← limited_eq, WithBot.coe_le_coe] at low high
  exact ⟨u, Binary64.value?_of_level limited_eq.symm (Binary64.abs_lt_limit at_u), at_u,
    abs_le.mpr ⟨low, high⟩⟩

/-- The whole part is the floor, except in the lowest cell, whose arguments lie below it. -/
theorem wholePart_cases (at_v : value? x = some v) (inside : |v| ≤ greatestArgument) :
    (v < -9 ∧ wholePart x = -9) ∨ (-9 ≤ v ∧ wholePart x = ⌊v⌋) := by
  obtain ⟨low, high⟩ := abs_le.mp inside
  have limit_high := (abs_le.mp abs_greatestArgument_sub_le).2
  have floor_le : ⌊v⌋ ≤ 9 := by
    rw [← Int.lt_add_one_iff, Int.floor_lt]
    push_cast
    linarith
  rw [wholePart_eq at_v]
  by_cases below : v < -9
  · have floor_lt : ⌊v⌋ < -9 := Int.floor_lt.mpr (by exact_mod_cast below)
    exact .inl ⟨below, by omega⟩
  · have le_floor : -9 ≤ ⌊v⌋ := Int.le_floor.mpr (by exact_mod_cast not_lt.mp below)
    exact .inr ⟨not_lt.mp below, by omega⟩

/-- The look-up misses the argument by at most half a step, or the argument is above the greatest
    fraction of its cell, which is taken. -/
theorem gridPoint_cases (at_v : value? (limited x) = some v) (inside : |v| ≤ greatestArgument) :
    ((v < -9 ∨ Int.fract v ≤ 999 / 1000) ∧ |gridPoint x - v| ≤ 1 / 2000 + 1 / 10 ^ 13) ∨
      (-9 ≤ v ∧ 999 / 1000 < Int.fract v ∧ gridPoint x - v = 999 / 1000 - Int.fract v) := by
  have least := (abs_le.mp inside).1
  have limit_high := (abs_le.mp abs_greatestArgument_sub_le).2
  have miss : gridPoint x - v =
      ((fractionIndex (limited x) : ℚ) - 999) / 1000 - (v - wholePart (limited x)) := by
    rw [gridPoint]
    ring
  rw [miss]
  rcases wholePart_cases at_v inside with ⟨below, whole⟩ | ⟨above, whole⟩
  · have cases := fractionIndex_cases at_v (by rw [whole]; push_cast; linarith)
      (by rw [whole]; push_cast; linarith)
    rcases cases with ⟨-, near⟩ | ⟨beyond, -⟩
    · exact .inl ⟨.inl below, near⟩
    · rw [whole] at beyond
      push_cast at beyond
      linarith
  · have fract_nonneg := Int.fract_nonneg v
    have fract_lt := Int.fract_lt_one v
    have remainder : v - wholePart (limited x) = Int.fract v := by
      rw [whole]
      exact Int.self_sub_floor v
    have cases := fractionIndex_cases at_v (by linarith) (by linarith)
    rw [remainder] at cases ⊢
    rcases cases with ⟨le, near⟩ | ⟨beyond, last⟩
    · exact .inl ⟨.inr le, near⟩
    · refine .inr ⟨above, beyond, ?_⟩
      rw [last]
      norm_num

/-- The look-up is off by at most half a step, up to rounding, exactly below -9 and where the
    argument is no more than 0.9995 above a whole number. Everywhere it is off by less than a
    step. -/
theorem abs_gridPoint_sub_le_iff (low : -argumentLimit ≤ x) (high : x ≤ argumentLimit) :
    ∃ v, value? x = some v ∧
      tableExp x = wholeEntry (wholeIndex (limited x)) * fractionEntry (fractionIndex (limited x)) ∧
      (wholeIndex (limited x) : ℤ) = wholePart (limited x) + 9 ∧
      (|gridPoint x - v| ≤ 1 / 2000 + 1 / 10 ^ 12 ↔
        v < -9 ∨ Int.fract v ≤ 9995 / 10000 + 1 / 10 ^ 12) ∧
      |gridPoint x - v| < 1 / 1000 := by
  obtain ⟨v, at_v, at_limited, inside⟩ := value?_limited low high
  have lowest := (wholePart_between (limited x)).1
  have index : (wholeIndex (limited x) : ℤ) = wholePart (limited x) + 9 := by
    rw [wholeIndex, wholeLimit]
    omega
  refine ⟨v, at_v, tableExp_eq x, index, ?_⟩
  rcases gridPoint_cases at_limited inside with ⟨place, near⟩ | ⟨above, beyond, miss⟩
  · have half : v < -9 ∨ Int.fract v ≤ 9995 / 10000 + 1 / 10 ^ 12 :=
      place.imp_right fun le => by linarith
    exact ⟨iff_of_true (by linarith) half, by linarith⟩
  · have fract_lt := Int.fract_lt_one v
    have not_below : ¬ v < -9 := not_lt.mpr above
    rw [miss, abs_of_neg (by linarith), or_iff_right not_below]
    constructor
    · constructor <;> intro le <;> linarith
    · linarith

theorem abs_gridPoint_sub_le_iff_ends :
    (-argumentLimit ≤ -9.25 ∧ -9.25 ≤ argumentLimit ∧
      |gridPoint (-9.25) - (-37 / 4)| ≤ 1 / 2000 + 1 / 10 ^ 12) ∧
    (-argumentLimit ≤ 1.9375 ∧ 1.9375 ≤ argumentLimit ∧
      |gridPoint 1.9375 - 31 / 16| ≤ 1 / 2000 + 1 / 10 ^ 12) := by
  have lower : -argumentLimit ≤ -9.25 ∧ -9.25 ≤ argumentLimit := by decide +kernel
  have upper : -argumentLimit ≤ 1.9375 ∧ 1.9375 ≤ argumentLimit := by decide +kernel
  have at_lower : value? (-9.25) = some (-37 / 4) := by decide +kernel
  have at_upper : value? 1.9375 = some (31 / 16) := by decide +kernel
  obtain ⟨v, at_v, -, -, near_iff, -⟩ := abs_gridPoint_sub_le_iff lower.1 lower.2
  obtain ⟨w, at_w, -, -, near_iff', -⟩ := abs_gridPoint_sub_le_iff upper.1 upper.2
  obtain rfl := Option.some.inj (at_v.symm.trans at_lower)
  obtain rfl := Option.some.inj (at_w.symm.trans at_upper)
  refine ⟨⟨lower.1, lower.2, near_iff.mpr (.inl (by norm_num))⟩, upper.1, upper.2, ?_⟩
  have fraction : Int.fract (31 / 16 : ℚ) = 15 / 16 := by
    rw [Int.fract, show ⌊(31 / 16 : ℚ)⌋ = 1 by norm_num [Int.floor_eq_iff]]
    norm_num
  exact near_iff'.mpr (.inr (by rw [fraction]; norm_num))

/-- The whole number one is nearer to 0.9999 than the greatest fraction is. -/
theorem gridPoint_nines :
    -argumentLimit ≤ 0.9999 ∧ 0.9999 ≤ argumentLimit ∧
      ∃ v, value? 0.9999 = some v ∧ wholePart (limited 0.9999) = 0 ∧
        fractionIndex (limited 0.9999) = 1998 ∧ gridPoint 0.9999 = 999 / 1000 ∧
        ¬ |gridPoint 0.9999 - v| ≤ 1 / 2000 + 1 / 10 ^ 12 := by
  have whole : wholePart (limited 0.9999) = 0 := by decide +kernel
  have position : fractionIndex (limited 0.9999) = 1998 := by decide +kernel
  have at_v : value? 0.9999 = some (9006298534815518 / 2 ^ 53) := by decide +kernel
  have point : gridPoint 0.9999 = 999 / 1000 := by
    rw [gridPoint, whole, position]
    norm_num
  refine ⟨by decide +kernel, by decide +kernel, _, at_v, whole, position, point, ?_⟩
  rw [point, not_le, abs_of_neg (by norm_num)]
  norm_num

end FixedPointNet.Exponential
