import FixedPointNet.Proofs.Binary64.Monotone
import FixedPointNet.Settings

/-!
# The grid of valid settings

Along the grid of valid settings the ratios do not decrease, and none is below zero. The step may be
as large as a float can be: if it is infinite, the ratio at position zero is not a number.
-/

namespace FixedPointNet.Settings

open Binary64 (value? level NotNegative)

theorem isShare_iff_level {x : Float} :
    isShare x = true ↔ (0 : ℚ) ≤ level x ∧ level x < (1 : ℚ) := by
  have one : level 1 = (1 : ℚ) := Binary64.level_of_value? (by decide +kernel)
  rw [isShare, Bool.and_eq_true, decide_eq_true_iff, decide_eq_true_iff, Binary64.le_iff,
    Binary64.lt_iff, Binary64.level_zero, one]
  constructor
  · rintro ⟨⟨-, nonneg⟩, -, below⟩
    exact ⟨nonneg, below⟩
  · rintro ⟨nonneg, below⟩
    have number : level x ≠ ⊥ := by
      intro nan
      rw [nan] at nonneg
      cases nonneg
    exact ⟨⟨WithBot.coe_ne_bot, nonneg⟩, number, below⟩

theorem isShare_eq_true_iff {x : Float} :
    isShare x = true ↔ ∃ v, value? x = some v ∧ 0 ≤ v ∧ v < 1 := by
  rw [isShare_iff_level]
  constructor
  · rintro ⟨nonneg, below⟩
    rcases Binary64.level_cases x with nan | bottom | top | ⟨v, value, at_v, -⟩
    · rw [nan] at nonneg
      exact absurd nonneg (WithBot.bot_lt_coe 0).not_ge
    · rw [bottom, WithBot.coe_le_coe] at nonneg
      exact absurd nonneg (neg_neg_of_pos (Rounding.limit_pos _)).not_ge
    · rw [top, WithBot.coe_lt_coe] at below
      exact absurd below (one_le_pow₀ one_le_two).not_gt
    · rw [at_v, WithBot.coe_le_coe] at nonneg
      rw [at_v, WithBot.coe_lt_coe] at below
      exact ⟨v, value, nonneg, below⟩
  · rintro ⟨v, value, nonneg, below⟩
    rw [Binary64.level_of_value? value, WithBot.coe_le_coe, WithBot.coe_lt_coe]
    exact ⟨nonneg, below⟩

/-- What the check of settings establishes. -/
structure InRange (s : Settings) : Prop where
  fractionBits : 0 < s.fractionBits ∧ s.fractionBits ≤ maxFractionBits
  tolerance : ∃ v, value? s.tolerance = some v ∧ 0 ≤ v ∧ v < 1
  step : (0 : ℚ) < level s.pruneStep
  start : ∃ v, value? s.pruneStart = some v ∧ 0 ≤ v ∧ v < 1
  stop : ∃ v, value? s.pruneStop = some v ∧ 0 ≤ v ∧ v < 1
  ordered : level s.pruneStart ≤ level s.pruneStop

variable {s : Settings}

theorem check_eq_ok_iff : s.check = .ok () ↔ s.InRange := by
  have step_iff : 0 < s.pruneStep ↔ (0 : ℚ) < level s.pruneStep := by
    rw [Binary64.lt_iff]
    exact and_iff_right WithBot.coe_ne_bot
  have order_iff (stop : isShare s.pruneStop = true) :
      s.pruneStop < s.pruneStart ↔ ¬ level s.pruneStart ≤ level s.pruneStop := by
    obtain ⟨v, value, -⟩ := isShare_eq_true_iff.mp stop
    rw [Binary64.lt_iff, not_le, Binary64.level_of_value? value]
    exact and_iff_right WithBot.coe_ne_bot
  constructor
  · intro passed
    unfold check at passed
    split_ifs at passed with fractionBits tolerance step grid
    simp only [Bool.not_eq_true, Bool.not_eq_false', decide_eq_true_eq, Bool.or_eq_true,
      not_or] at tolerance step grid
    obtain ⟨⟨start, stop⟩, ordered⟩ := grid
    rw [order_iff stop, not_not] at ordered
    exact ⟨by omega, isShare_eq_true_iff.mp tolerance, step_iff.mp step,
      isShare_eq_true_iff.mp start, isShare_eq_true_iff.mp stop, ordered⟩
  · intro inRange
    obtain ⟨⟨some_bits, few_bits⟩, tolerance, step, start, stop, ordered⟩ := inRange
    rw [← isShare_eq_true_iff] at tolerance start stop
    have not_reversed : ¬ s.pruneStop < s.pruneStart := by
      rwa [order_iff stop, not_not]
    rw [check, if_neg (by omega)]
    simp [tolerance, start, stop, step_iff.mpr step, not_reversed]

/-- Snapping is a scaling, a rounding and a scaling back. -/
theorem level_snap (x : Float) :
    level (snap x) = Binary64.lift (· / 10 ^ 12)
      (Binary64.lift (fun v => Binary64.halfAway v) (Binary64.lift (· * 10 ^ 12) (level x))) := by
  have scale : value? snapScale = some (10 ^ 12) := by decide +kernel
  have pos : (0 : ℚ) < 10 ^ 12 := by positivity
  rw [snap, Binary64.level_div_of_pos scale pos, Binary64.level_roundHalfAway,
    Binary64.level_mul_of_pos scale pos]

theorem level_snap_le_level_snap {x y : Float} (le : level x ≤ level y) :
    level (snap x) ≤ level (snap y) := by
  have pos : (0 : ℚ) < 10 ^ 12 := by positivity
  have scaled : Monotone fun v : ℚ => v * 10 ^ 12 := fun _ _ le =>
    mul_le_mul_of_nonneg_right le pos.le
  have rounded : Monotone fun v : ℚ => (Binary64.halfAway v : ℚ) := fun _ _ le =>
    Int.cast_le.mpr (Binary64.halfAway_le_halfAway le)
  have scaled_back : Monotone fun v : ℚ => v / 10 ^ 12 := fun _ _ le =>
    div_le_div_of_nonneg_right le pos.le
  rw [level_snap, level_snap]
  exact Binary64.lift_mono scaled_back (Binary64.lift_mono rounded (Binary64.lift_mono scaled le))

theorem notNegative_snap {x : Float} (notNegative : NotNegative x) : NotNegative (snap x) := by
  rcases notNegative with nan | nonneg
  · left
    rw [level_snap, nan]
    rfl
  · right
    have zero : level (snap 0) = (0 : ℚ) := Binary64.level_of_value? (by decide +kernel)
    rw [← zero]
    exact level_snap_le_level_snap nonneg

theorem InRange.level_ratioAt_le (inRange : s.InRange) {i j : Nat} (le : i ≤ j) :
    level (s.ratioAt i) ≤ level (s.ratioAt j) := by
  obtain ⟨v, start, -⟩ := inRange.start
  apply level_snap_le_level_snap
  apply Binary64.level_value_add_le start
  exact Binary64.level_mul_le_level_mul inRange.step (Binary64.notNegative_ofNat i)
    (Binary64.level_ofNat_le_level_ofNat le)

theorem InRange.notNegative_ratioAt (inRange : s.InRange) (k : Nat) :
    NotNegative (s.ratioAt k) := by
  obtain ⟨v, start, nonneg, -⟩ := inRange.start
  apply notNegative_snap
  apply NotNegative.value_add _ start nonneg
  exact (Binary64.notNegative_ofNat k).mul inRange.step

theorem ratios_eq (step : (0 : ℚ) < level s.pruneStep)
    (ordered : level s.pruneStart ≤ level s.pruneStop) :
    s.ratios = (List.range (s.stepCount + 1)).map s.ratioAt := by
  have some_step : ¬ s.pruneStep ≤ 0 := by
    rw [Binary64.le_iff]
    intro none
    exact absurd step none.2.not_gt
  have not_reversed : ¬ s.pruneStop < s.pruneStart := by
    rw [Binary64.lt_iff]
    intro reversed
    exact absurd ordered reversed.2.not_ge
  rw [ratios, if_neg (not_or.mpr ⟨some_step, not_reversed⟩)]

theorem InRange.ratios_eq (inRange : s.InRange) :
    s.ratios = (List.range (s.stepCount + 1)).map s.ratioAt :=
  Settings.ratios_eq inRange.step inRange.ordered

theorem InRange.getElem?_ratios (inRange : s.InRange) {k : Nat} {ratio : Float}
    (at_k : s.ratios[k]? = some ratio) : ratio = s.ratioAt k := by
  rw [inRange.ratios_eq, List.getElem?_map, Option.map_eq_some_iff] at at_k
  obtain ⟨position, in_range, rfl⟩ := at_k
  rw [(List.getElem?_eq_some_iff.mp in_range).2.symm, List.getElem_range]

end FixedPointNet.Settings
