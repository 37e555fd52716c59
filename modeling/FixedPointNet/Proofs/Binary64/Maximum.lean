import FixedPointNet.Proofs.Binary64

/-!
# The greatest of several floats

The maximum of two floats passes over what is not a number. On the number line, where that is below
everything, it is the maximum of the levels; taken over a list, it ends with one of the floats, and
none is above it.
-/

namespace FixedPointNet.Binary64

variable {x y : Float} {v : ℚ}

theorem level_maxNumber (x y : Float) : level (maxNumber x y) = max (level x) (level y) := by
  unfold maxNumber
  split_ifs with nan less
  · rw [isNaN_iff] at nan
    rw [nan, max_eq_right bot_le]
  · rw [max_eq_right (lt_iff.mp less).2.le]
  · rw [isNaN_iff] at nan
    rw [lt_iff, not_and] at less
    rw [max_eq_left (not_lt.mp (less nan))]

theorem maxNumber_cases (x y : Float) : maxNumber x y = x ∨ maxNumber x y = y := by
  unfold maxNumber
  split_ifs
  · exact .inr rfl
  · exact .inr rfl
  · exact .inl rfl

/-- What is not a number does not change the maximum. -/
theorem maxNumber_of_isNaN (number : level x ≠ ⊥) (nan : level y = ⊥) : maxNumber x y = x := by
  have not_less : ¬ x < y := by
    rw [lt_iff, nan]
    exact fun less => not_lt_bot less.2
  rw [maxNumber, if_neg (isNaN_iff.not.mpr number), if_neg not_less]

theorem foldl_maxNumber_mem (start : Float) (xs : List Float) :
    xs.foldl maxNumber start ∈ start :: xs := by
  induction xs generalizing start with
  | nil => exact List.mem_cons_self
  | cons x xs ih =>
    rw [List.foldl_cons]
    rcases List.mem_cons.mp (ih (maxNumber start x)) with first | later
    · rw [first]
      rcases maxNumber_cases start x with same | same <;> simp [same]
    · exact List.mem_cons_of_mem _ (List.mem_cons_of_mem _ later)

theorem level_le_foldl_maxNumber (start : Float) (xs : List Float) :
    ∀ x ∈ start :: xs, level x ≤ level (xs.foldl maxNumber start) := by
  induction xs generalizing start with
  | nil =>
    intro x member
    rw [List.mem_singleton.mp member]
    rfl
  | cons y xs ih =>
    have greater := ih (maxNumber start y) _ List.mem_cons_self
    rw [level_maxNumber] at greater
    intro x member
    rw [List.foldl_cons]
    rcases List.mem_cons.mp member with rfl | member
    · exact (le_max_left _ _).trans greater
    rcases List.mem_cons.mp member with rfl | member
    · exact (le_max_right _ _).trans greater
    · exact ih (maxNumber start y) x (List.mem_cons_of_mem _ member)

theorem neg_limit_le_level (number : level x ≠ ⊥) : (-limit : ℚ) ≤ level x := by
  have positive := Rounding.limit_pos .binary64
  rcases level_cases x with nan | bottom | top | ⟨v, -, at_v, below⟩
  · exact absurd nan number
  · rw [bottom]
  · rw [top, WithBot.coe_le_coe]
    linarith
  · rw [at_v, WithBot.coe_le_coe]
    exact (abs_lt.mp below).1.le

theorem level_negInfinity : level negInfinity = (-limit : ℚ) := by
  have special : negInfinity.toModel.unpack = .infinity .negative := rfl
  rw [level, special]
  rfl

/-- A function that is nowhere above another one takes no float above where the other takes it. -/
theorem lift_le_lift {f g : ℚ → ℚ} (le : ∀ v, f v ≤ g v) (l : WithBot ℚ) : lift f l ≤ lift g l := by
  cases l with
  | bot => exact bot_le
  | coe v =>
    rw [lift, lift, WithBot.map_coe, WithBot.map_coe, WithBot.coe_le_coe]
    split_ifs
    · exact le_rfl
    · exact le_rfl
    · exact Rounding.rounded_mono .binary64 (le v)

/-- Rounding leaves a float where it is. -/
theorem lift_id_level (x : Float) : lift id (level x) = level x := by
  rcases level_cases x with nan | bottom | top | ⟨v, value, at_v, below⟩
  · rw [nan]
    rfl
  · rw [bottom]
    exact lift_infinity id .negative
  · rw [top]
    exact lift_infinity id .positive
  · rw [at_v, lift_of_abs_lt id below]
    exact congrArg _ ((packed x).rounded_eq value)

theorem lift_level_le {f : ℚ → ℚ} (falls : ∀ v, f v ≤ v) (x : Float) :
    lift f (level x) ≤ level x :=
  (lift_le_lift falls _).trans_eq (lift_id_level x)

theorem le_lift_level {f : ℚ → ℚ} (grows : ∀ v, v ≤ f v) (x : Float) :
    level x ≤ lift f (level x) :=
  (lift_id_level x).symm.trans_le (lift_le_lift grows _)

end FixedPointNet.Binary64
