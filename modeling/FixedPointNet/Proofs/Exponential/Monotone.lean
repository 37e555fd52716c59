import FixedPointNet.Proofs.Exponential.Table

/-!
# The table exponential is monotone

The arguments fall into cells, one for each whole part. Within a cell a greater argument has no
smaller fraction, so it finds no smaller entry. From one cell to the next, the entry for the lower
whole part times the greatest fraction is still below the entry for the higher one, and above the
lowest cell no fraction is negative.
-/

namespace FixedPointNet.Exponential

open Binary64 (value? level rounded)

variable {x y : Float} {u v : ℚ} {i j : Nat}

/-- Limited arguments keep their order. -/
theorem exists_limited_le (number : level x ≠ ⊥) (le : level x ≤ level y) :
    ∃ u v, value? (limited x) = some u ∧ value? (limited y) = some v ∧ u ≤ v := by
  obtain ⟨u, at_u, u_limited⟩ := exists_value?_limited number
  obtain ⟨v, at_v, v_limited⟩ := exists_value?_limited (ne_bot_of_le_ne_bot number le)
  refine ⟨u, v, at_u, at_v, ?_⟩
  rw [← WithBot.coe_le_coe, u_limited, v_limited]
  exact max_le_max le_rfl (min_le_min le_rfl le)

theorem wholePart_le_wholePart (at_u : value? x = some u) (at_v : value? y = some v) (le : u ≤ v) :
    wholePart x ≤ wholePart y := by
  have floors := Int.floor_mono le
  rw [wholePart_eq at_u, wholePart_eq at_v]
  omega

/-- In one cell the order of the arguments is the order of their positions. -/
theorem fractionIndex_le_of_wholePart_eq (at_u : value? x = some u) (at_v : value? y = some v)
    (le : u ≤ v) (same : wholePart x = wholePart y) : fractionIndex x ≤ fractionIndex y := by
  have differences := Rounding.rounded_mono .binary64 (sub_le_sub_right le (wholePart y : ℚ))
  apply fractionIndex_le_fractionIndex
  rw [Binary64.level_of_value? (value?_fractionPart at_u), same,
    Binary64.level_of_value? (value?_fractionPart at_v), WithBot.coe_le_coe]
  exact max_le_max le_rfl (min_le_min le_rfl differences)

/-- Above the lowest cell no fraction is negative. -/
theorem middle_le_fractionIndex (at_v : value? y = some v) (above : -9 < wholePart y) :
    999 ≤ fractionIndex y := by
  have whole := wholePart_eq at_v
  have floor_le : wholePart y ≤ ⌊v⌋ := by omega
  have part_le : (wholePart y : ℚ) ≤ v := Int.le_floor.mp floor_le
  have difference := Binary64.rounded_nonneg (sub_nonneg.mpr part_le)
  have nonneg : level (fractionPart 0) ≤ level (fractionPart y) := by
    rw [Binary64.level_of_value? (fractionPart_of_zero Binary64.value?_zero),
      Binary64.level_of_value? (value?_fractionPart at_v), WithBot.coe_le_coe]
    exact le_max_of_le_right (le_min greatestFraction_pos.le difference)
  rw [← fractionIndex_of_zero Binary64.value?_zero]
  exact fractionIndex_le_fractionIndex nonneg

/-- The greatest fraction does not lead from one whole number past the next. -/
theorem wholeEntry_mul_le : ∀ i < 18, wholeEntry i * fractionEntry 1998 ≤ wholeEntry (i + 1) := by
  decide +kernel

theorem rounded_mul_greatest_le (inside : i < 18) :
    rounded (wholeValue i * fractionValue 1998) ≤ wholeValue (i + 1) := by
  have product := Binary64.level_mul (value?_wholeEntry inside.le) (value?_fractionEntry le_rfl)
  have le := (Binary64.le_iff.mp (wholeEntry_mul_le i inside)).2
  rw [product, level_wholeEntry (show i + 1 ≤ 18 by omega), WithBot.coe_le_coe] at le
  exact le

/-- A product in one cell is not above a product in a higher one, if the latter has no negative
    fraction. -/
theorem rounded_mul_le_of_lt {i' j' : Nat} (less : i < i') (inside : i' ≤ 18) (within : j ≤ 1998)
    (above : 999 ≤ j') :
    rounded (wholeValue i * fractionValue j) ≤ rounded (wholeValue i' * fractionValue j') := by
  have one_le : 1 ≤ fractionValue j' := by
    rw [← fractionValue_middle]
    exact fractionValue_mono above
  calc rounded (wholeValue i * fractionValue j)
      ≤ rounded (wholeValue i * fractionValue 1998) :=
        Rounding.rounded_mono _
          (mul_le_mul_of_nonneg_left (fractionValue_mono within) (wholeValue_nonneg i))
    _ ≤ wholeValue (i + 1) := rounded_mul_greatest_le (by omega)
    _ ≤ wholeValue i' := wholeValue_mono less
    _ = rounded (wholeValue i') := (Binary64.rounded_of_value? (value?_wholeEntry inside)).symm
    _ ≤ rounded (wholeValue i' * fractionValue j') :=
        Rounding.rounded_mono _ (le_mul_of_one_le_right (wholeValue_nonneg i') one_le)

/-- The table exponential keeps the order of all floats, infinities included. -/
theorem level_tableExp_le (number : level x ≠ ⊥) (le : level x ≤ level y) :
    level (tableExp x) ≤ level (tableExp y) := by
  obtain ⟨u, v, at_u, at_v, u_le⟩ := exists_limited_le number le
  have parts := wholePart_le_wholePart at_u at_v u_le
  have lowest := (wholePart_between (limited x)).1
  rw [Binary64.level_of_value? (value?_tableExp x), Binary64.level_of_value? (value?_tableExp y),
    WithBot.coe_le_coe]
  rcases parts.eq_or_lt with same | less
  · have fractions := fractionIndex_le_of_wholePart_eq at_u at_v u_le same
    rw [wholeIndex, wholeIndex, same]
    exact Rounding.rounded_mono _
      (mul_le_mul_of_nonneg_left (fractionValue_mono fractions) (wholeValue_nonneg _))
  · have positions : wholeIndex (limited x) < wholeIndex (limited y) := by
      rw [wholeIndex, wholeIndex, wholeLimit]
      omega
    exact rounded_mul_le_of_lt positions (wholeIndex_le _) (fractionIndex_le _)
      (middle_le_fractionIndex at_v (lowest.trans_lt less))

/-- Whatever the argument is, both tables have an entry for it and the result is their product. The
    results are ordered as the arguments are. -/
theorem tableExp_monotone :
    (∀ x : Float, (wholeIndex (limited x) : ℤ) = wholePart (limited x) + wholeLimit ∧
      ∃ w f, wholeTable[wholeIndex (limited x)]? = some w ∧
        fractionTable[fractionIndex (limited x)]? = some f ∧ tableExp x = w * f) ∧
    ∀ x y : Float, x ≤ y → tableExp x ≤ tableExp y := by
  refine ⟨fun x => ⟨?_, _, _, ?_, ?_, tableExp_eq x⟩, ?_⟩
  · have lowest := (wholePart_between (limited x)).1
    rw [wholeIndex, wholeLimit]
    omega
  · simp [wholeTable, wholeEntries, Nat.lt_succ_of_le (wholeIndex_le (limited x))]
  · simp [fractionTable, fractionEntries, Nat.lt_succ_of_le (fractionIndex_le (limited x))]
  · intro x y le
    obtain ⟨number, le⟩ := Binary64.le_iff.mp le
    rw [Binary64.le_iff, Binary64.level_of_value? (value?_tableExp x)]
    refine ⟨WithBot.coe_ne_bot, ?_⟩
    rw [← Binary64.level_of_value? (value?_tableExp x)]
    exact level_tableExp_le number le

/-- A negative argument near zero is rounded up to the greatest fraction of the cell below. -/
theorem tableExp_monotone_crossing :
    (-1e-18 : Float) ≤ 0 ∧ wholePart (limited (-1e-18)) = -1 ∧
      fractionIndex (limited (-1e-18)) = 1998 ∧ tableExp (-1e-18) ≤ tableExp 0 ∧
      Binary64.negInfinity ≤ Binary64.infinity ∧
      tableExp Binary64.negInfinity ≤ tableExp Binary64.infinity := by
  have ordered := tableExp_monotone.2
  have near : (-1e-18 : Float) ≤ 0 := by decide +kernel
  have far : Binary64.negInfinity ≤ Binary64.infinity := by decide +kernel
  exact ⟨near, by decide +kernel, by decide +kernel, ordered _ _ near, far, ordered _ _ far⟩

end FixedPointNet.Exponential
