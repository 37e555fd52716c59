import FixedPointNet.Proofs.Binary64.Error
import FixedPointNet.Proofs.Settings

/-!
# How far a grid reaches

The last ratio of a grid is its start plus a whole number of steps. The slack on that number and the
rounding of every operation can carry it past the stop, by little more than 1e-9 if the step is
finite. Snapping then moves it to a multiple of 1e-12: where that is below one, it is so by at least
2 ^ (-40).
-/

namespace FixedPointNet.Settings

open Binary64 (value? level limit lift rounded roundedUp)

/-- Rounding to an integer leaves no gap but that between two integers. -/
theorem lift_halfAway_cases (scaled : WithBot ℚ) :
    lift (fun v => Binary64.halfAway v) scaled ≤ (10 ^ 12 - 1 : ℚ) ∨
      (10 ^ 12 : ℚ) ≤ lift (fun v => Binary64.halfAway v) scaled := by
  have far := Binary64.two_pow_lt_limit
  have positive := Rounding.limit_pos .binary64
  have whole : rounded (10 ^ 12) = 10 ^ 12 :=
    Binary64.rounded_of_value? (x := 1e12) (by decide +kernel)
  have whole_pred : rounded (10 ^ 12 - 1) = 10 ^ 12 - 1 :=
    Binary64.rounded_of_value? (x := 999999999999) (by decide +kernel)
  cases scaled with
  | bot => exact .inl bot_le
  | coe v =>
    rw [lift, WithBot.map_coe, WithBot.coe_le_coe, WithBot.coe_le_coe]
    split_ifs with bottom top
    · left
      linarith
    · right
      linarith
    · rcases lt_or_ge (Binary64.halfAway v) (10 ^ 12) with below | above
      · left
        rw [← whole_pred]
        apply Rounding.rounded_mono
        exact_mod_cast Int.le_sub_one_of_lt below
      · right
        rw [← whole]
        apply Rounding.rounded_mono
        exact_mod_cast above

/-- Between the greatest multiple of 1e-12 below one and one, there is no ratio. -/
theorem level_snap_le_of_lt_one {x : Float} (below : level (snap x) < (1 : ℚ)) :
    level (snap x) ≤ (1 - 1 / 2 ^ 40 : ℚ) := by
  have far := Binary64.two_pow_lt_limit
  have scaled_back : Monotone (lift (· / 10 ^ 12)) :=
    Binary64.lift_mono fun _ _ le => div_le_div_of_nonneg_right le (by positivity)
  rw [level_snap] at below ⊢
  rcases lift_halfAway_cases (lift (· * 10 ^ 12) (level x)) with multiple | multiple
  · have last : lift (· / 10 ^ 12) (10 ^ 12 - 1 : ℚ) ≤ (1 - 1 / 2 ^ 40 : ℚ) := by
      rw [Binary64.lift_of_abs_lt _ (by rw [abs_lt]; constructor <;> linarith), WithBot.coe_le_coe]
      exact Binary64.rounded_le_of_value? (x := 1 - 1 / 1099511627776) (by decide +kernel)
        (by norm_num)
    exact (scaled_back multiple).trans last
  · have one : lift (· / 10 ^ 12) (10 ^ 12 : ℚ) = (1 : ℚ) := by
      rw [Binary64.lift_of_abs_lt _ (by rw [abs_of_pos (by positivity)]; linarith),
        div_self (by positivity), Binary64.rounded_of_value? (x := 1) (by decide +kernel)]
    exact absurd (one.symm.le.trans (scaled_back multiple)) below.not_ge

/-- The numbers of valid settings whose step is finite. -/
structure Numbers (s : Settings) (a b w : ℚ) : Prop where
  start : value? s.pruneStart = some a
  stop : value? s.pruneStop = some b
  step : value? s.pruneStep = some w
  start_nonneg : 0 ≤ a
  ordered : a ≤ b
  stop_lt : b < 1
  step_pos : 0 < w

variable {s : Settings} {a b w t : ℚ}

theorem InRange.numbers (inRange : s.InRange) (step : value? s.pruneStep = some w) :
    ∃ a b, s.Numbers a b w := by
  obtain ⟨a, start, a_nonneg, -⟩ := inRange.start
  obtain ⟨b, stop, -, b_lt⟩ := inRange.stop
  have ordered := inRange.ordered
  have positive := inRange.step
  rw [Binary64.level_of_value? start, Binary64.level_of_value? stop, WithBot.coe_le_coe] at ordered
  rw [Binary64.level_of_value? step, WithBot.coe_lt_coe] at positive
  exact ⟨a, b, start, stop, step, a_nonneg, ordered, b_lt, positive⟩

/-- The number of steps is no more than what is computed for it. -/
theorem stepCount_le (nonneg : 0 ≤ t)
    (le : level ((s.pruneStop - s.pruneStart) / s.pruneStep + stepSlack) ≤ t) :
    (s.stepCount : ℚ) ≤ t := by
  have far := Binary64.two_pow_lt_limit
  have wide : ((0xffffffffffffffff : ℤ) : ℚ) ≤ limit := by
    push_cast
    linarith
  have count_nonneg := (Binary64.floorClamp_between (le_refl 0)
    (show (0 : Int) ≤ 0xffffffffffffffff by decide)
    ((s.pruneStop - s.pruneStart) / s.pruneStep + stepSlack)).1
  rw [stepCount, ← Int.cast_natCast, Int.toNat_of_nonneg count_nonneg]
  exact Binary64.floorClamp_le_of_level_le (by decide) wide nonneg le

theorem stepCount_le_two_pow (s : Settings) : (s.stepCount : ℚ) ≤ 2 ^ 64 := by
  have count : s.stepCount ≤ 2 ^ 64 := by
    have between := Binary64.floorClamp_between (le_refl 0)
      (show (0 : Int) ≤ 0xffffffffffffffff by decide)
      ((s.pruneStop - s.pruneStart) / s.pruneStep + stepSlack)
    rw [stepCount]
    omega
  exact_mod_cast count

/-- The span of a grid in steps, as it is computed. -/
theorem Numbers.exists_level_span (numbers : s.Numbers a b w) :
    ∃ steps : ℚ, level ((s.pruneStop - s.pruneStart) / s.pruneStep) = steps ∧ 0 ≤ steps ∧
      steps * w ≤ b - a + 3 / 10 ^ 15 + w / 10 ^ 30 := by
  obtain ⟨start, stop, step, a_nonneg, ordered, b_lt, w_pos⟩ := numbers
  have one_lt : 1 < limit := one_lt_pow₀ one_lt_two (by decide)
  have span_nonneg : 0 ≤ rounded (b - a) := Binary64.rounded_nonneg (by linarith)
  have span_le : rounded (b - a) ≤ roundedUp (b - a) :=
    Binary64.rounded_le_roundedUp (by linarith)
  have span_le_one : rounded (b - a) ≤ 1 :=
    Binary64.rounded_le_of_value? (x := 1) (by decide +kernel) (by linarith)
  have span : value? (s.pruneStop - s.pruneStart) = some (rounded (b - a)) :=
    Binary64.value?_of_level (Binary64.level_sub stop start) (by rw [abs_of_nonneg] <;> linarith)
  have steps_nonneg : 0 ≤ rounded (b - a) / w := by positivity
  refine ⟨_, Binary64.level_div span step w_pos.ne', Binary64.rounded_nonneg steps_nonneg, ?_⟩
  have up := mul_le_mul_of_nonneg_right (Binary64.rounded_le_roundedUp steps_nonneg) w_pos.le
  rw [roundedUp, add_mul, mul_right_comm, div_mul_cancel₀ _ w_pos.ne'] at up
  rw [roundedUp] at span_le
  linarith

/-- The slack and the rounding add little to the whole steps of a grid. -/
theorem Numbers.stepCount_mul_le (numbers : s.Numbers a b w) :
    s.stepCount * w ≤ b - a + 1 / 10 ^ 14 + w * (10001 / 10 ^ 13) := by
  obtain ⟨steps, span, steps_nonneg, steps_le⟩ := numbers.exists_level_span
  obtain ⟨-, -, -, a_nonneg, -, b_lt, w_pos⟩ := numbers
  have slack : value? stepSlack = some (4835703278458517 / 2 ^ 82) := by decide +kernel
  have count : (s.stepCount : ℚ) ≤ roundedUp (steps + 4835703278458517 / 2 ^ 82) := by
    apply stepCount_le
    · rw [roundedUp]
      positivity
    · rw [Binary64.level_add_value slack, span]
      exact Binary64.lift_le_roundedUp steps_nonneg (by norm_num)
  have scaled := mul_le_mul_of_nonneg_right count w_pos.le
  rw [roundedUp] at scaled
  linarith

/-- Before it is snapped, the last ratio is hardly above the stop. -/
theorem Numbers.level_last_le (numbers : s.Numbers a b w) :
    level (s.pruneStart + Binary64.ofNat s.stepCount * s.pruneStep) ≤ (b + 12 / 10 ^ 10 : ℚ) := by
  have steps_le := numbers.stepCount_mul_le
  obtain ⟨start, -, step, a_nonneg, ordered, b_lt, w_pos⟩ := numbers
  have k_le := stepCount_le_two_pow s
  rw [Binary64.level_value_add start, Binary64.level_mul (Binary64.value?_ofNat k_le) step]
  generalize s.stepCount = k at steps_le
  have count_nonneg : 0 ≤ rounded k := Binary64.rounded_nonneg k.cast_nonneg
  have travelled : rounded k * w ≤ b - a + 11 / 10 ^ 10 := by
    -- a step that is not made may be of any size; one that is made is hardly above one
    rcases Nat.eq_zero_or_pos k with rfl | pos
    · rw [Nat.cast_zero, rounded, Rounding.rounded_zero, zero_mul]
      linarith
    · have one_le : (1 : ℚ) ≤ k := Nat.one_le_cast.mpr pos
      have up := mul_le_mul_of_nonneg_right (Binary64.rounded_le_roundedUp k.cast_nonneg) w_pos.le
      have step_le : 1 * w ≤ k * w := mul_le_mul_of_nonneg_right one_le w_pos.le
      rw [roundedUp, add_mul, mul_right_comm] at up
      linarith
  have offset_nonneg : 0 ≤ rounded (rounded k * w) := Binary64.rounded_nonneg (by positivity)
  have offset_le : rounded (rounded k * w) ≤ roundedUp (rounded k * w) :=
    Binary64.rounded_le_roundedUp (by positivity)
  refine (Binary64.lift_le_roundedUp offset_nonneg (by linarith)).trans ?_
  rw [WithBot.coe_le_coe]
  simp only [roundedUp] at offset_le ⊢
  linarith

/-- A stop that keeps its distance from one keeps every ratio below one. -/
theorem Numbers.level_ratioAt_lt_one (numbers : s.Numbers a b w) (distant : b ≤ 1 - 19 / 10 ^ 10) :
    level (s.ratioAt s.stepCount) < (1 : ℚ) := by
  have near : value? (1 - 1 / 2147483648) = some (1 - 1 / 2 ^ 31) := by decide +kernel
  have snapped : level (snap (1 - 1 / 2147483648)) < (1 : ℚ) := by
    obtain ⟨v, value, -, below⟩ := isShare_eq_true_iff.mp
      (by decide +kernel : isShare (snap (1 - 1 / 2147483648)) = true)
    rwa [Binary64.level_of_value? value, WithBot.coe_lt_coe]
  have last : level (s.pruneStart + Binary64.ofNat s.stepCount * s.pruneStep) ≤
      level (1 - 1 / 2147483648) := by
    refine numbers.level_last_le.trans ?_
    rw [Binary64.level_of_value? near, WithBot.coe_le_coe]
    linarith
  exact (level_snap_le_level_snap last).trans_lt snapped

theorem InRange.step_lt_infinity_iff (inRange : s.InRange) :
    s.pruneStep < Binary64.infinity ↔ ∃ w, value? s.pruneStep = some w := by
  have top : level Binary64.infinity = limit := rfl
  rw [Binary64.lt_iff, top]
  constructor
  · rintro ⟨-, below⟩
    rcases Binary64.cases_of_pos inRange.step with ⟨w, value, -⟩ | infinite
    · exact ⟨w, value⟩
    · rw [level, infinite] at below
      exact absurd below (lt_irrefl _)
  · rintro ⟨w, value⟩
    rw [Binary64.level_of_value? value, WithBot.coe_lt_coe]
    exact ⟨WithBot.coe_ne_bot, (abs_lt.mp (Binary64.abs_lt_limit value)).2⟩

/-- With an infinite step the first ratio is not a number. -/
theorem InRange.step_lt_infinity (inRange : s.InRange) (share : isShare (s.ratioAt 0) = true) :
    s.pruneStep < Binary64.infinity := by
  rw [inRange.step_lt_infinity_iff]
  rcases Binary64.cases_of_pos inRange.step with ⟨w, value, -⟩ | infinite
  · exact ⟨w, value⟩
  · obtain ⟨a, start, -⟩ := inRange.start
    have none : level (Binary64.ofNat 0) = (0 : ℚ) := by
      rw [Binary64.level_ofNat, Nat.cast_zero, rounded, Rounding.rounded_zero]
    have product := Binary64.level_mul_infinity_eq_bot infinite (Binary64.notNegative_ofNat 0)
      (by rw [none]; exact lt_irrefl _)
    have nan : level (s.ratioAt 0) = ⊥ := by
      rw [ratioAt, level_snap, Binary64.level_value_add start, product]
      rfl
    rw [isShare_iff_level, nan] at share
    exact absurd share.1 (WithBot.bot_lt_coe 0).not_ge

/-- The ratios of a finite step are numbers. -/
theorem Numbers.level_ratioAt_nonneg (numbers : s.Numbers a b w) (inRange : s.InRange) (k : Nat) :
    (0 : ℚ) ≤ level (s.ratioAt k) := by
  rcases inRange.notNegative_ratioAt k with nan | nonneg
  · rw [ratioAt, level_snap, Binary64.level_value_add numbers.start,
      Binary64.level_mul_of_pos numbers.step numbers.step_pos, Binary64.level_ofNat] at nan
    cases nan
  · exact nonneg

/-- If the last ratio is below one, all ratios keep a distance from one. -/
theorem Numbers.ratioAt_between (numbers : s.Numbers a b w) (inRange : s.InRange)
    (last : level (s.ratioAt s.stepCount) < (1 : ℚ)) {k : Nat} (le : k ≤ s.stepCount) :
    (0 : ℚ) ≤ level (s.ratioAt k) ∧ level (s.ratioAt k) ≤ (1 - 1 / 2 ^ 40 : ℚ) :=
  ⟨numbers.level_ratioAt_nonneg inRange k,
    (inRange.level_ratioAt_le le).trans (level_snap_le_of_lt_one last)⟩

end FixedPointNet.Settings
