import FixedPointNet.Proofs.Rounding.Packing

/-!
# Floats on the number line

A finite float is a rational number. For comparisons the infinities are put at the least power of
two that a format does not reach, and what is not a number below everything. Then packing a rounded
number is to clamp it between the infinities, and floats compare as their levels do, except that
nothing compares with what is not a number.
-/

namespace FixedPointNet.Rounding

open Float.Model (Format UnpackedFloat totalExponent)
open Float.Model.UnpackedFloat

/-- A magnitude with a sign. -/
def signed : Sign → ℚ → ℚ
  | .negative, v => -v
  | .positive, v => v

/-- The number of a finite float. -/
def value? : UnpackedFloat → Option ℚ
  | .zero _ => some 0
  | .finite s m e _ => some (signed s (m * 2 ^ e))
  | _ => none

variable (spec : Format)

/-- The least power of two above all finite floats. -/
def limit : ℚ :=
  2 ^ (spec.exponentBias + 1)

/-- The number of a float, with the infinities at the limit and below everything what is not a
    number. -/
def level : UnpackedFloat → WithBot ℚ
  | .notANumber => ⊥
  | .infinity s => signed s (limit spec)
  | .zero _ => (0 : ℚ)
  | .finite s m e _ => signed s (m * 2 ^ e)

/-- The level of what a number is rounded to. -/
def rounded (v : ℚ) : ℚ :=
  max (-limit spec) (min (limit spec) (nearest spec v))

theorem limit_pos : 0 < limit spec :=
  pow_pos two_pos _

theorem rounded_mono : Monotone (rounded spec) := fun _ _ le =>
  max_le_max le_rfl (min_le_min le_rfl (nearest_mono spec le))

theorem abs_rounded_le (v : ℚ) : |rounded spec v| ≤ limit spec := by
  have positive := limit_pos spec
  rw [abs_le, rounded]
  constructor
  · exact le_max_left _ _
  · exact max_le (by linarith) (min_le_left _ _)

variable {spec}

theorem rounded_of_limit_le {v : ℚ} (large : limit spec ≤ nearest spec v) :
    rounded spec v = limit spec := by
  have positive := limit_pos spec
  rw [rounded, min_eq_left large, max_eq_right (by linarith)]

theorem rounded_of_abs_lt {v : ℚ} (below : |nearest spec v| < limit spec) :
    rounded spec v = nearest spec v := by
  rw [abs_lt] at below
  rw [rounded, min_eq_right below.2.le, max_eq_right below.1.le]

theorem rounded_eq {v : ℚ} (representable : Representable spec v) (below : |v| < limit spec) :
    rounded spec v = v := by
  have same := nearest_eq spec representable
  rw [rounded_of_abs_lt (by rwa [same]), same]

theorem rounded_neg (v : ℚ) : rounded spec (-v) = -rounded spec v := by
  have positive := limit_pos spec
  rw [rounded, rounded, nearest_neg]
  rcases max_cases (-limit spec) (min (limit spec) (nearest spec v)) with ⟨eq, le⟩ | ⟨eq, lt⟩
  all_goals rcases min_cases (limit spec) (nearest spec v) with ⟨eq', le'⟩ | ⟨eq', lt'⟩
  all_goals rw [eq]
  all_goals grind

theorem rounded_signed (s : Sign) (v : ℚ) :
    rounded spec (signed s v) = signed s (rounded spec v) := by
  cases s
  · exact rounded_neg v
  · rfl

theorem level_of_value? {u : UnpackedFloat} {v : ℚ} (value : value? u = some v) :
    level spec u = v := by
  cases u <;> cases value <;> rfl

@[simp] theorem signed_zero (s : Sign) : signed s 0 = 0 := by
  cases s
  · exact neg_zero
  · rfl

theorem Canonical.limit_le {s : Sign} {m : Nat} {e : ℤ} {pos : 0 < m}
    (wide : 0 < spec.exponentBias) (canonical : Canonical spec (.finite s m e pos))
    (large : spec.exponentBias < e + spec.mantissaBitsWithoutImplicit) :
    limit spec ≤ m * 2 ^ e := by
  have least := minExponent_eq spec
  have bits : spec.mantissaBits = 1 + spec.mantissaBitsWithoutImplicit := rfl
  rw [Canonical, Format.targetExponent, totalExponent] at canonical
  have exponents : ((spec.exponentBias + 1 : Nat) : ℤ) ≤ m.log2 + e := by
    push_cast
    omega
  calc limit spec = 2 ^ ((spec.exponentBias + 1 : Nat) : ℤ) := (zpow_natCast _ _).symm
    _ ≤ 2 ^ (m.log2 + e : ℤ) := zpow_le_zpow_right₀ one_le_two exponents
    _ ≤ m * 2 ^ e := zpow_log2_le pos e

theorem Canonical.lt_limit {s : Sign} {m : Nat} {e : ℤ} {pos : 0 < m}
    (canonical : Canonical spec (.finite s m e pos))
    (small : e + spec.mantissaBitsWithoutImplicit ≤ spec.exponentBias) :
    m * 2 ^ e < limit spec := by
  have bits : spec.mantissaBits = 1 + spec.mantissaBitsWithoutImplicit := rfl
  rw [Canonical, Format.targetExponent, totalExponent] at canonical
  have exponents : m.log2 + 1 + e ≤ ((spec.exponentBias + 1 : Nat) : ℤ) := by
    push_cast
    omega
  calc (m * 2 ^ e : ℚ) < 2 ^ (m.log2 + 1 + e : ℤ) := mul_lt_zpow_log2 m e
    _ ≤ 2 ^ ((spec.exponentBias + 1 : Nat) : ℤ) := zpow_le_zpow_right₀ one_le_two exponents
    _ = limit spec := zpow_natCast _ _

/-- Packing clamps a rounded number between the infinities. -/
theorem level_unpack_pack {s : Sign} {v : ℚ} {u : UnpackedFloat} (wide : 0 < spec.exponentBias)
    (rounds : Rounds spec s v u) :
    level spec (unpack spec (pack spec u)) = (rounded spec (signed s v) : ℚ) := by
  rw [rounded_signed]
  cases rounds with
  | zero vanishes =>
    rw [rounded_of_abs_lt (by simpa [vanishes] using limit_pos spec), vanishes, signed_zero, pack,
      unpack_packedZero]
    rfl
  | finite canonical magnitude =>
    rw [unpack_pack_finite canonical]
    split_ifs with large
    · have bound := canonical.limit_le wide large
      rw [magnitude] at bound
      rw [rounded_of_limit_le bound]
      rfl
    · have bound := canonical.lt_limit (not_lt.mp large)
      rw [rounded_of_abs_lt ?_, ← magnitude]
      · rfl
      · rw [← magnitude, abs_of_nonneg (mul_nonneg (Nat.cast_nonneg _) (zpow_nonneg two_pos.le _))]
        exact bound

/-- A packed float is not a number, infinite, or a number below the limit. -/
theorem Packed.value?_cases {u : UnpackedFloat} (packed : Packed spec u) :
    u = .notANumber ∨ (∃ s, u = .infinity s) ∨ ∃ v, value? u = some v ∧ |v| < limit spec := by
  cases u with
  | notANumber => exact .inl rfl
  | infinity s => exact .inr (.inl ⟨s, rfl⟩)
  | zero s => exact .inr (.inr ⟨0, rfl, by simpa using limit_pos spec⟩)
  | finite s m e pos =>
    refine .inr (.inr ⟨_, rfl, ?_⟩)
    have bound := packed.1.lt_limit packed.2
    have nonneg : (0 : ℚ) ≤ m * 2 ^ e := mul_nonneg m.cast_nonneg (zpow_nonneg two_pos.le e)
    cases s <;> simpa [signed, abs_of_nonneg nonneg] using bound

theorem Packed.abs_lt {u : UnpackedFloat} {v : ℚ} (packed : Packed spec u)
    (value : value? u = some v) : |v| < limit spec := by
  obtain rfl | ⟨s, rfl⟩ | ⟨w, value', below⟩ := packed.value?_cases
  · cases value
  · cases value
  · obtain rfl : w = v := Option.some.inj (value'.symm.trans value)
    exact below

/-- Of two canonical floats, the one with the larger exponent is larger. -/
theorem Canonical.lt_of_exponent_lt {s₁ s₂ : Sign} {m₁ m₂ : Nat} {e₁ e₂ : ℤ} {pos₁ : 0 < m₁}
    {pos₂ : 0 < m₂} (canonical₁ : Canonical spec (.finite s₁ m₁ e₁ pos₁))
    (canonical₂ : Canonical spec (.finite s₂ m₂ e₂ pos₂)) (lt : e₁ < e₂) :
    (m₁ * 2 ^ e₁ : ℚ) < m₂ * 2 ^ e₂ := by
  rw [Canonical, Format.targetExponent, totalExponent] at canonical₁ canonical₂
  have exponents : m₁.log2 + 1 + e₁ ≤ m₂.log2 + e₂ := by omega
  exact (mul_lt_zpow_log2 m₁ e₁).trans_le
    ((zpow_le_zpow_right₀ one_le_two exponents).trans (zpow_log2_le pos₂ e₂))

theorem Canonical.compare_eq {s₁ s₂ : Sign} {m₁ m₂ : Nat} {e₁ e₂ : ℤ} {pos₁ : 0 < m₁}
    {pos₂ : 0 < m₂}
    (canonical₁ : Canonical spec (.finite s₁ m₁ e₁ pos₁))
    (canonical₂ : Canonical spec (.finite s₂ m₂ e₂ pos₂)) :
    (compare e₁ e₂).then (compare m₁ m₂) = compare (m₁ * 2 ^ e₁ : ℚ) (m₂ * 2 ^ e₂) := by
  rcases lt_trichotomy e₁ e₂ with lt | rfl | gt
  · have less := canonical₁.lt_of_exponent_lt canonical₂ lt
    rw [compare_lt_iff_lt.mpr lt, compare_lt_iff_lt.mpr less]
    rfl
  · have scale : (0 : ℚ) < 2 ^ e₁ := zpow_pos two_pos e₁
    rw [compare_eq_iff_eq.mpr rfl]
    change compare m₁ m₂ = _
    rcases lt_trichotomy m₁ m₂ with lt | rfl | gt
    · rw [compare_lt_iff_lt.mpr lt, compare_lt_iff_lt.mpr]
      exact mul_lt_mul_of_pos_right (Nat.cast_lt.mpr lt) scale
    · rw [compare_eq_iff_eq.mpr rfl, compare_eq_iff_eq.mpr rfl]
    · rw [compare_gt_iff_gt.mpr gt, compare_gt_iff_gt.mpr]
      exact mul_lt_mul_of_pos_right (Nat.cast_lt.mpr gt) scale
  · have greater := canonical₂.lt_of_exponent_lt canonical₁ gt
    rw [compare_gt_iff_gt.mpr gt, compare_gt_iff_gt.mpr greater]
    rfl

theorem Packed.magnitude {s : Sign} {m : Nat} {e : ℤ} {pos : 0 < m}
    (packed : Packed spec (.finite s m e pos)) : (0 : ℚ) < m * 2 ^ e ∧ m * 2 ^ e < limit spec :=
  ⟨mul_pos (Nat.cast_pos.mpr pos) (zpow_pos two_pos e), packed.1.lt_limit packed.2⟩

theorem compare_neg_neg (a b : ℚ) : compare (-a) (-b) = (compare a b).swap := by
  rcases lt_trichotomy a b with lt | rfl | gt
  · rw [compare_lt_iff_lt.mpr lt, compare_gt_iff_gt.mpr (neg_lt_neg lt)]
    rfl
  · rw [compare_eq_iff_eq.mpr rfl, compare_eq_iff_eq.mpr rfl]
    rfl
  · rw [compare_gt_iff_gt.mpr gt, compare_lt_iff_lt.mpr (neg_lt_neg gt)]
    rfl

theorem compare_finite {s₁ s₂ : Sign} {m₁ m₂ : Nat} {e₁ e₂ : ℤ} {pos₁ : 0 < m₁} {pos₂ : 0 < m₂}
    (packed₁ : Packed spec (.finite s₁ m₁ e₁ pos₁))
    (packed₂ : Packed spec (.finite s₂ m₂ e₂ pos₂)) :
    (UnpackedFloat.finite s₁ m₁ e₁ pos₁).compare (.finite s₂ m₂ e₂ pos₂) =
      some (compare (signed s₁ (m₁ * 2 ^ e₁)) (signed s₂ (m₂ * 2 ^ e₂))) := by
  obtain ⟨positive₁, -⟩ := packed₁.magnitude
  obtain ⟨positive₂, -⟩ := packed₂.magnitude
  have magnitudes := packed₁.1.compare_eq packed₂.1
  cases s₁ <;> cases s₂
  · change some ((compare e₁ e₂).then (compare m₁ m₂)).swap = some (compare (-_) (-_))
    rw [magnitudes, compare_neg_neg]
  · have lt : signed .negative (m₁ * 2 ^ e₁) < signed .positive (m₂ * 2 ^ e₂) :=
      (neg_neg_of_pos positive₁).trans positive₂
    rw [compare_lt_iff_lt.mpr lt]
    rfl
  · have gt : signed .negative (m₂ * 2 ^ e₂) < signed .positive (m₁ * 2 ^ e₁) :=
      (neg_neg_of_pos positive₂).trans positive₁
    rw [compare_gt_iff_gt.mpr gt]
    rfl
  · exact congrArg some magnitudes

/-- Floats that are numbers compare as their levels do. -/
theorem compare_eq {u w : UnpackedFloat} {v v' : ℚ} (packed : Packed spec u)
    (packed' : Packed spec w) (at_v : level spec u = v) (at_v' : level spec w = v') :
    u.compare w = some (compare v v') := by
  have positive := limit_pos spec
  have lt {a b : ℚ} (below : a < b) : some Ordering.lt = some (compare a b) := by
    rw [compare_lt_iff_lt.mpr below]
  have gt {a b : ℚ} (above : b < a) : some Ordering.gt = some (compare a b) := by
    rw [compare_gt_iff_gt.mpr above]
  have eq {a : ℚ} : some Ordering.eq = some (compare a a) := by
    rw [compare_eq_iff_eq.mpr rfl]
  cases u with
  | notANumber => cases at_v
  | infinity s =>
    cases at_v
    cases w with
    | notANumber => cases at_v'
    | infinity s' =>
      cases at_v'
      cases s <;> cases s'
      · exact eq
      · exact lt (neg_lt_self positive)
      · exact gt (neg_lt_self positive)
      · exact eq
    | zero s' =>
      cases at_v'
      cases s
      · exact lt (neg_neg_of_pos positive)
      · exact gt positive
    | finite s' m' e' pos' =>
      obtain ⟨above, below⟩ := packed'.magnitude
      cases at_v'
      cases s <;> cases s'
      · exact lt (neg_lt_neg below)
      · exact lt ((neg_neg_of_pos positive).trans above)
      · exact gt ((neg_neg_of_pos above).trans positive)
      · exact gt below
  | zero s =>
    cases at_v
    cases w with
    | notANumber => cases at_v'
    | infinity s' =>
      cases at_v'
      cases s'
      · exact gt (neg_neg_of_pos positive)
      · exact lt positive
    | zero s' =>
      cases at_v'
      exact eq
    | finite s' m' e' pos' =>
      obtain ⟨above, -⟩ := packed'.magnitude
      cases at_v'
      cases s'
      · exact gt (neg_neg_of_pos above)
      · exact lt above
  | finite s m e pos =>
    obtain ⟨above, below⟩ := packed.magnitude
    cases at_v
    cases w with
    | notANumber => cases at_v'
    | infinity s' =>
      cases at_v'
      cases s <;> cases s'
      · exact gt (neg_lt_neg below)
      · exact lt ((neg_neg_of_pos above).trans positive)
      · exact gt ((neg_neg_of_pos positive).trans above)
      · exact lt below
    | zero s' =>
      cases at_v'
      cases s
      · exact lt (neg_neg_of_pos above)
      · exact gt above
    | finite s' m' e' pos' =>
      cases at_v'
      exact compare_finite packed packed'

theorem level_eq_bot_iff {u : UnpackedFloat} : level spec u = ⊥ ↔ u = .notANumber := by
  cases u <;> simp [level]

/-- One float is below another exactly when it is a number and its level is smaller. -/
theorem lt_iff {u w : UnpackedFloat} (packed : Packed spec u) (packed' : Packed spec w) :
    u.lt w = true ↔ level spec u ≠ ⊥ ∧ level spec u < level spec w := by
  cases at_v : level spec u with
  | bot =>
    rw [level_eq_bot_iff] at at_v
    simp [at_v, UnpackedFloat.lt, UnpackedFloat.compare]
  | coe v =>
    cases at_v' : level spec w with
    | bot =>
      rw [level_eq_bot_iff] at at_v'
      cases u <;> simp [at_v', UnpackedFloat.lt, UnpackedFloat.compare]
    | coe v' =>
      rw [UnpackedFloat.lt, compare_eq packed packed' at_v at_v']
      simp [compare_lt_iff_lt]

theorem le_iff {u w : UnpackedFloat} (packed : Packed spec u) (packed' : Packed spec w) :
    u.le w = true ↔ level spec u ≠ ⊥ ∧ level spec u ≤ level spec w := by
  cases at_v : level spec u with
  | bot =>
    rw [level_eq_bot_iff] at at_v
    simp [at_v, UnpackedFloat.le, UnpackedFloat.compare]
  | coe v =>
    cases at_v' : level spec w with
    | bot =>
      rw [level_eq_bot_iff] at at_v'
      cases u <;> simp [at_v', UnpackedFloat.le, UnpackedFloat.compare]
    | coe v' =>
      rw [UnpackedFloat.le, compare_eq packed packed' at_v at_v']
      simp [compare_le_iff_le, Ordering.isLE_iff_ne_gt]

theorem beq_iff {u w : UnpackedFloat} (packed : Packed spec u) (packed' : Packed spec w) :
    u.beq w = true ↔ level spec u ≠ ⊥ ∧ level spec u = level spec w := by
  cases at_v : level spec u with
  | bot =>
    rw [level_eq_bot_iff] at at_v
    simp [at_v, UnpackedFloat.beq, UnpackedFloat.compare]
  | coe v =>
    cases at_v' : level spec w with
    | bot =>
      rw [level_eq_bot_iff] at at_v'
      cases u <;> simp [at_v', UnpackedFloat.beq, UnpackedFloat.compare]
    | coe v' =>
      rw [UnpackedFloat.beq, compare_eq packed packed' at_v at_v']
      simp

end FixedPointNet.Rounding
