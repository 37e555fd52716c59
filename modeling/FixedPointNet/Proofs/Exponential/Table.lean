import FixedPointNet.Exponential.Table
import FixedPointNet.Proofs.Binary64.Exact
import FixedPointNet.Proofs.Exponential.Nearest

/-!
# The table exponential on the number line

Both tables hold numbers, and neither decreases. An argument selects one entry of each, whatever it
is, and the result is their rounded product. At zero the result is one, and below zero it is at most
one: the greatest entry for a negative whole part times the greatest entry for a fraction is still
below one.
-/

namespace FixedPointNet.Exponential

open Binary64 (value? level rounded limit ofInt roundHalfAway)

variable {x y : Float} {v w : ℚ} {i j : Nat}

/-- The number of an entry of the table of whole numbers. -/
def wholeValue (i : Nat) : ℚ :=
  rounded (scaledExp (i - 9) / 2 ^ seriesBits)

/-- The number of an entry of the table of fractions. -/
def fractionValue (i : Nat) : ℚ :=
  rounded (scaledExp (rounded ((i - 999) / 1000)) / 2 ^ seriesBits)

theorem rounded_scaledExp_mono : Monotone fun v => rounded (scaledExp v / 2 ^ seriesBits) := by
  intro v w le
  have scaled : (scaledExp v : ℚ) ≤ scaledExp w := by exact_mod_cast scaledExp_mono le
  exact Rounding.rounded_mono _ (div_le_div_of_nonneg_right scaled (by positivity))

theorem wholeValue_mono : Monotone wholeValue := by
  intro i j le
  have positions : (i : ℚ) ≤ j := by exact_mod_cast le
  exact rounded_scaledExp_mono (by linarith)

theorem fractionValue_mono : Monotone fractionValue := by
  intro i j le
  have positions : (i : ℚ) ≤ j := by exact_mod_cast le
  exact rounded_scaledExp_mono (Rounding.rounded_mono _ (by linarith))

theorem wholeValue_nonneg (i : Nat) : 0 ≤ wholeValue i :=
  Binary64.rounded_nonneg (by positivity)

theorem fractionValue_nonneg (i : Nat) : 0 ≤ fractionValue i :=
  Binary64.rounded_nonneg (by positivity)

theorem level_wholeEntry (inside : i ≤ 18) : level (wholeEntry i) = wholeValue i := by
  have small : |((i : ℤ) - wholeLimit)| < 2 ^ 53 := by
    rw [wholeLimit, abs_lt]
    omega
  have whole : (((i : ℤ) - wholeLimit : ℤ) : ℚ) = i - 9 := by
    rw [wholeLimit]
    push_cast
    rfl
  have at_whole := Binary64.value?_ofInt small
  rw [whole] at at_whole
  rw [wholeEntry, level_nearest at_whole, wholeValue]

theorem level_fractionEntry (inside : i ≤ 1998) : level (fractionEntry i) = fractionValue i := by
  have steps_small : |((i : ℤ) - 999)| < 2 ^ 53 := by
    rw [abs_lt]
    omega
  have at_steps := Binary64.value?_ofInt steps_small
  have thousand : (1000 : Float) = ofInt 1000 := rfl
  have at_thousand := Binary64.value?_ofInt (show |(1000 : ℤ)| < 2 ^ 53 by norm_num)
  rw [← thousand] at at_thousand
  have divided := Binary64.level_div at_steps at_thousand (by norm_num)
  have position_le : (i : ℚ) ≤ 1998 := by exact_mod_cast inside
  have position_nonneg : (0 : ℚ) ≤ i := i.cast_nonneg
  have fraction : (((i : ℤ) - 999 : ℤ) / (1000 : ℤ) : ℚ) = (i - 999) / 1000 := by push_cast; rfl
  have small : |((i - 999) / 1000 : ℚ)| ≤ 2 ^ 64 := by
    rw [abs_le]
    constructor <;> linarith
  rw [fraction] at divided
  rw [fractionEntry, level_nearest (Binary64.value?_of_abs_le divided small), fractionValue]

theorem wholeValue_eq (inside : i ≤ 18) (at_v : value? (wholeEntry i) = some v) :
    wholeValue i = v :=
  WithBot.coe_inj.mp ((level_wholeEntry inside).symm.trans (Binary64.level_of_value? at_v))

theorem fractionValue_eq (inside : i ≤ 1998) (at_v : value? (fractionEntry i) = some v) :
    fractionValue i = v :=
  WithBot.coe_inj.mp ((level_fractionEntry inside).symm.trans (Binary64.level_of_value? at_v))

/-- The entries that the bounds of both tables rest on. -/
theorem value?_entries :
    value? (wholeEntry 8) = some (828390857088487 / 2 ^ 51) ∧
      value? (wholeEntry 9) = some 1 ∧
      value? (wholeEntry 18) = some (4454717499606977 / 2 ^ 39) ∧
      value? (fractionEntry 999) = some 1 ∧
      value? (fractionEntry 1998) = some (6114908547846547 / 2 ^ 51) := by
  decide +kernel

theorem wholeValue_nine : wholeValue 9 = 1 :=
  wholeValue_eq (by decide) value?_entries.2.1

theorem fractionValue_middle : fractionValue 999 = 1 :=
  fractionValue_eq (by decide) value?_entries.2.2.2.1

theorem wholeValue_le (inside : i ≤ 18) : wholeValue i ≤ 8192 :=
  calc wholeValue i ≤ wholeValue 18 := wholeValue_mono inside
    _ ≤ 8192 := by
      rw [wholeValue_eq (by decide) value?_entries.2.2.1]
      norm_num

theorem fractionValue_le (inside : i ≤ 1998) : fractionValue i ≤ 2716 / 1000 :=
  calc fractionValue i ≤ fractionValue 1998 := fractionValue_mono inside
    _ ≤ 2716 / 1000 := by
      rw [fractionValue_eq (by decide) value?_entries.2.2.2.2]
      norm_num

/-- The entries for negative whole parts make up for the greatest fraction. -/
theorem wholeValue_le_of_neg (inside : i ≤ 8) : wholeValue i ≤ 368 / 1000 :=
  calc wholeValue i ≤ wholeValue 8 := wholeValue_mono inside
    _ ≤ 368 / 1000 := by
      rw [wholeValue_eq (by decide) value?_entries.1]
      norm_num

theorem value?_wholeEntry (inside : i ≤ 18) : value? (wholeEntry i) = some (wholeValue i) := by
  have le := wholeValue_le inside
  have far := Binary64.two_pow_lt_limit
  apply Binary64.value?_of_level (level_wholeEntry inside)
  rw [abs_of_nonneg (wholeValue_nonneg i)]
  linarith

theorem value?_fractionEntry (inside : i ≤ 1998) :
    value? (fractionEntry i) = some (fractionValue i) := by
  have le := fractionValue_le inside
  have far := Binary64.two_pow_lt_limit
  apply Binary64.value?_of_level (level_fractionEntry inside)
  rw [abs_of_nonneg (fractionValue_nonneg i)]
  linarith

theorem wholeIndex_le (x : Float) : wholeIndex x ≤ 18 := by
  have between := Binary64.floorClamp_between (show -wholeLimit ≤ 0 by decide)
    (show 0 ≤ wholeLimit by decide) x
  rw [wholeIndex, wholePart, wholeLimit] at *
  omega

theorem fractionIndex_le (x : Float) : fractionIndex x ≤ 1998 := by
  have between := Binary64.floorClamp_between (le_refl 0)
    (show (0 : ℤ) ≤ fractionEntries - 1 by decide)
    (roundHalfAway ((fractionPart x + fractionLimit) / fractionStep))
  rw [fractionIndex]
  rw [fractionEntries] at between ⊢
  omega

/-- Both look-ups find an entry, whatever the argument is. -/
theorem tableExp_eq (x : Float) : tableExp x =
    wholeEntry (wholeIndex (limited x)) * fractionEntry (fractionIndex (limited x)) := by
  have whole := wholeIndex_le (limited x)
  have fraction := fractionIndex_le (limited x)
  have whole_entry : wholeTable.getD (wholeIndex (limited x)) 0 =
      wholeEntry (wholeIndex (limited x)) := by
    simp [wholeTable, wholeEntries, Array.getD_eq_getD_getElem?, Nat.lt_succ_of_le whole]
  have fraction_entry : fractionTable.getD (fractionIndex (limited x)) 0 =
      fractionEntry (fractionIndex (limited x)) := by
    simp [fractionTable, fractionEntries, Array.getD_eq_getD_getElem?, Nat.lt_succ_of_le fraction]
  rw [tableExp, whole_entry, fraction_entry]

/-- The product of the two entries that an argument selects. -/
theorem entries_mul_between (x : Float) :
    0 ≤ wholeValue (wholeIndex x) * fractionValue (fractionIndex x) ∧
      wholeValue (wholeIndex x) * fractionValue (fractionIndex x) ≤ 32768 := by
  have whole_nonneg := wholeValue_nonneg (wholeIndex x)
  have fraction_nonneg := fractionValue_nonneg (fractionIndex x)
  have product : wholeValue (wholeIndex x) * fractionValue (fractionIndex x) ≤
      8192 * (2716 / 1000) :=
    mul_le_mul (wholeValue_le (wholeIndex_le x)) (fractionValue_le (fractionIndex_le x))
      fraction_nonneg (by norm_num)
  exact ⟨mul_nonneg whole_nonneg fraction_nonneg, product.trans (by norm_num)⟩

/-- The table exponential is a number everywhere: the rounded product of two entries. -/
theorem value?_tableExp (x : Float) : value? (tableExp x) =
    some (rounded (wholeValue (wholeIndex (limited x)) *
      fractionValue (fractionIndex (limited x)))) := by
  obtain ⟨nonneg, le⟩ := entries_mul_between (limited x)
  rw [tableExp_eq]
  apply Binary64.value?_of_abs_le (Binary64.level_mul (value?_wholeEntry (wholeIndex_le _))
    (value?_fractionEntry (fractionIndex_le _)))
  rw [abs_of_nonneg nonneg]
  linarith

theorem tableExp_between (x : Float) : ∃ t, value? (tableExp x) = some t ∧ 0 ≤ t ∧ t ≤ 32768 := by
  obtain ⟨nonneg, le⟩ := entries_mul_between (limited x)
  have bound := Binary64.value?_ofNat_of_le (show 32768 ≤ 2 ^ 53 by norm_num)
  exact ⟨_, value?_tableExp x, Binary64.rounded_nonneg nonneg,
    Binary64.rounded_le_of_value? bound le⟩

/-- The number of the greatest argument inside the range of the tables. -/
def greatestArgument : ℚ := 5628936584259699 * 2 ^ (-49 : ℤ)

/-- The number of the greatest fraction. -/
def greatestFraction : ℚ := 8998192055486251 * 2 ^ (-53 : ℤ)

/-- The number of the distance of two fractions. -/
def fractionDistance : ℚ := 4611686018427388 * 2 ^ (-62 : ℤ)

theorem value?_argumentLimit : value? argumentLimit = some greatestArgument := rfl

theorem value?_fractionLimit : value? fractionLimit = some greatestFraction := rfl

theorem value?_fractionStep : value? fractionStep = some fractionDistance := rfl

theorem greatestArgument_pos : 0 < greatestArgument := by
  rw [greatestArgument]
  positivity

theorem greatestFraction_pos : 0 < greatestFraction := by
  rw [greatestFraction]
  positivity

theorem fractionDistance_pos : 0 < fractionDistance := by
  rw [fractionDistance]
  positivity

/-- Zero is inside every symmetric range. -/
theorem max_neg_min_zero (pos : 0 < v) : max (-v) (min v 0) = 0 := by
  rw [min_eq_right pos.le, max_eq_right (neg_nonpos.mpr pos.le)]

/-- A limited argument is a number: the argument moved into the range of the tables. -/
theorem exists_value?_limited (number : level x ≠ ⊥) :
    ∃ u : ℚ, value? (limited x) = some u ∧
      (u : WithBot ℚ) =
        max ((-greatestArgument : ℚ) : WithBot ℚ) (min greatestArgument (level x)) := by
  have ordered : -greatestArgument ≤ greatestArgument := neg_le_self greatestArgument_pos.le
  have at_least := Binary64.value?_neg value?_argumentLimit
  obtain ⟨u, at_u, clamped, -⟩ :=
    Binary64.exists_value?_clamp at_least value?_argumentLimit ordered number
  refine ⟨u, ?_, clamped⟩
  rwa [limited, if_neg (Binary64.isNaN_iff.not.mpr number)]

/-- The limited argument is a number in the range of the tables, whatever the argument is. -/
theorem exists_value?_limited_of_any (x : Float) :
    ∃ v, value? (limited x) = some v ∧ |v| ≤ greatestArgument := by
  have positive := greatestArgument_pos
  by_cases nan : level x = ⊥
  · refine ⟨0, ?_, by simpa using positive.le⟩
    rw [limited, if_pos (Binary64.isNaN_iff.mpr nan)]
    exact Binary64.value?_zero
  · obtain ⟨v, at_v, clamped⟩ := exists_value?_limited nan
    have low : ((-greatestArgument : ℚ) : WithBot ℚ) ≤ v := clamped ▸ le_max_left _ _
    have high : (v : WithBot ℚ) ≤ greatestArgument := by
      rw [clamped]
      exact max_le (WithBot.coe_le_coe.mpr (neg_le_self positive.le)) (min_le_left _ _)
    exact ⟨v, at_v, abs_le.mpr ⟨WithBot.coe_le_coe.mp low, WithBot.coe_le_coe.mp high⟩⟩

theorem wholePart_eq (at_v : value? x = some v) : wholePart x = max (-9) (min 9 ⌊v⌋) :=
  Binary64.floorClamp_of_value _ _ at_v

theorem wholePart_between (x : Float) : -9 ≤ wholePart x ∧ wholePart x ≤ 9 :=
  Binary64.floorClamp_between (by decide) (by decide) x

/-- The fraction is what the argument exceeds its whole part by, rounded and limited. -/
theorem value?_fractionPart (at_v : value? x = some v) : value? (fractionPart x) =
    some (max (-greatestFraction) (min greatestFraction (rounded (v - wholePart x)))) := by
  obtain ⟨low, high⟩ := wholePart_between x
  have at_whole := Binary64.value?_ofInt (show |wholePart x| < 2 ^ 53 by rw [abs_lt]; omega)
  have difference := Binary64.level_sub at_v at_whole
  have number : level (x - ofInt (wholePart x)) ≠ ⊥ := by simp [difference]
  have ordered : -greatestFraction ≤ greatestFraction := neg_le_self greatestFraction_pos.le
  have at_least := Binary64.value?_neg value?_fractionLimit
  obtain ⟨f, at_f, clamped, -⟩ :=
    Binary64.exists_value?_clamp at_least value?_fractionLimit ordered number
  rw [difference, ← WithBot.coe_min, ← WithBot.coe_max, WithBot.coe_inj] at clamped
  rw [fractionPart, at_f, clamped]

theorem fractionPart_of_zero (zero : value? x = some 0) : value? (fractionPart x) = some 0 := by
  have whole : wholePart x = 0 := by
    rw [wholePart_eq zero, Int.floor_zero]
    rfl
  rw [value?_fractionPart zero, whole, Int.cast_zero, sub_zero, rounded, Rounding.rounded_zero,
    max_neg_min_zero greatestFraction_pos]

/-- A greater fraction has no smaller position: each operation on the way to it is monotone. -/
theorem fractionIndex_le_fractionIndex (le : level (fractionPart x) ≤ level (fractionPart y)) :
    fractionIndex x ≤ fractionIndex y := by
  have added : level (fractionPart x + fractionLimit) ≤ level (fractionPart y + fractionLimit) := by
    rw [Binary64.level_add_value value?_fractionLimit, Binary64.level_add_value value?_fractionLimit]
    exact Binary64.lift_mono (fun _ _ le => add_le_add_left le _) le
  have divided : level ((fractionPart x + fractionLimit) / fractionStep) ≤
      level ((fractionPart y + fractionLimit) / fractionStep) := by
    rw [Binary64.level_div_of_pos value?_fractionStep fractionDistance_pos,
      Binary64.level_div_of_pos value?_fractionStep fractionDistance_pos]
    exact Binary64.lift_mono
      (fun _ _ le => div_le_div_of_nonneg_right le fractionDistance_pos.le) added
  have rounds : level (roundHalfAway ((fractionPart x + fractionLimit) / fractionStep)) ≤
      level (roundHalfAway ((fractionPart y + fractionLimit) / fractionStep)) := by
    rw [Binary64.level_roundHalfAway, Binary64.level_roundHalfAway]
    exact Binary64.lift_mono
      (fun _ _ le => Int.cast_le.mpr (Binary64.halfAway_le_halfAway le)) divided
  have far := Binary64.two_pow_lt_limit
  have high : ((fractionEntries - 1 : ℤ) : ℚ) ≤ limit := by
    rw [fractionEntries]
    push_cast
    linarith
  exact Int.toNat_le_toNat (Binary64.floorClamp_mono (by decide) high rounds)

/-- At zero the look-up takes the middle of the table of fractions. -/
theorem fractionIndex_of_zero (zero : value? x = some 0) : fractionIndex x = 999 := by
  have middle : fractionIndex 0 = 999 := by decide +kernel
  have same : level (fractionPart x) = level (fractionPart 0) := by
    rw [Binary64.level_of_value? (fractionPart_of_zero zero),
      Binary64.level_of_value? (fractionPart_of_zero Binary64.value?_zero)]
  rw [← middle]
  exact le_antisymm (fractionIndex_le_fractionIndex same.le) (fractionIndex_le_fractionIndex same.ge)

theorem value?_tableExp_of_zero (zero : level x = (0 : ℚ)) : value? (tableExp x) = some 1 := by
  have number : level x ≠ ⊥ := by
    rw [zero]
    exact WithBot.coe_ne_bot
  obtain ⟨u, at_u, clamped⟩ := exists_value?_limited number
  rw [zero, ← WithBot.coe_min, ← WithBot.coe_max, max_neg_min_zero greatestArgument_pos,
    WithBot.coe_inj] at clamped
  rw [clamped] at at_u
  have whole : wholeIndex (limited x) = 9 := by
    rw [wholeIndex, wholePart_eq at_u, Int.floor_zero]
    rfl
  rw [value?_tableExp, whole, fractionIndex_of_zero at_u, wholeValue_nine, fractionValue_middle,
    mul_one, Binary64.rounded_of_value? Binary64.value?_one]

/-- Below zero the whole part is negative. -/
theorem wholeIndex_le_of_neg (number : level x ≠ ⊥) (neg : level x < (0 : ℚ)) :
    wholeIndex (limited x) ≤ 8 := by
  obtain ⟨u, at_u, clamped⟩ := exists_value?_limited number
  have positive : -greatestArgument < 0 := neg_neg_of_pos greatestArgument_pos
  have below : (u : WithBot ℚ) < (0 : ℚ) := by
    rw [clamped]
    exact max_lt (WithBot.coe_lt_coe.mpr positive) ((min_le_right _ _).trans_lt neg)
  have floored : ⌊u⌋ < 0 := Int.floor_lt.mpr (by simpa using WithBot.coe_lt_coe.mp below)
  rw [wholeIndex, wholePart_eq at_u, wholeLimit]
  omega

/-- The exponential of a number that is not positive is between zero and one. -/
theorem exists_value?_tableExp (number : level x ≠ ⊥) (nonpos : level x ≤ (0 : ℚ)) :
    ∃ t, value? (tableExp x) = some t ∧ 0 ≤ t ∧ t ≤ 1 := by
  rcases nonpos.eq_or_lt with zero | neg
  · exact ⟨1, value?_tableExp_of_zero zero, zero_le_one, le_rfl⟩
  have fraction_nonneg := fractionValue_nonneg (fractionIndex (limited x))
  have product : wholeValue (wholeIndex (limited x)) * fractionValue (fractionIndex (limited x)) ≤
      368 / 1000 * (2716 / 1000) :=
    mul_le_mul (wholeValue_le_of_neg (wholeIndex_le_of_neg number neg))
      (fractionValue_le (fractionIndex_le _)) fraction_nonneg (by norm_num)
  have le_one := Binary64.rounded_le_of_value? Binary64.value?_one
    (product.trans (by norm_num))
  refine ⟨_, value?_tableExp x, ?_, le_one⟩
  exact Binary64.rounded_nonneg (mul_nonneg (wholeValue_nonneg _) fraction_nonneg)

end FixedPointNet.Exponential
