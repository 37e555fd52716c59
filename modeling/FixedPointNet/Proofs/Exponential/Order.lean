import FixedPointNet.Proofs.Exponential.Monotone
import FixedPointNet.Proofs.Exponential.Softmax

/-!
# Activations keep the order

The logistic function and the shares of a row are built on the table exponential by operations that
are monotone after rounding. So a greater argument has no smaller value under the logistic function,
and a greater number of a row has no smaller share.
-/

namespace FixedPointNet.Exponential

open Binary64 (value? level rounded)

variable {x y : Float} {row : List Float} {ts : List ℚ} {S : ℚ}

/-- The logistic function of a float: a number between zero and one, whatever the float is. -/
theorem exists_value?_sigmoid (x : Float) : ∃ t, value? (tableExp (-x)) = some t ∧ 0 ≤ t ∧
    1 ≤ rounded (1 + t) ∧ value? (sigmoid x) = some (rounded (1 / rounded (1 + t))) ∧
    0 ≤ rounded (1 / rounded (1 + t)) ∧ rounded (1 / rounded (1 + t)) ≤ 1 := by
  obtain ⟨t, at_t, nonneg, le⟩ := tableExp_between (-x)
  have at_sum := Binary64.value?_of_abs_le (Binary64.level_add Binary64.value?_one at_t)
    (by rw [abs_of_nonneg] <;> linarith)
  have one_le : 1 ≤ rounded (1 + t) := by
    have le := Rounding.rounded_mono .binary64 (show 1 ≤ 1 + t by linarith)
    exact (Binary64.rounded_of_value? Binary64.value?_one).symm.trans_le le
  have share_nonneg : 0 ≤ 1 / rounded (1 + t) := one_div_nonneg.mpr (zero_le_one.trans one_le)
  have share_le : 1 / rounded (1 + t) ≤ 1 := (div_le_one (zero_lt_one.trans_le one_le)).mpr one_le
  have divided := Binary64.level_div Binary64.value?_one at_sum (zero_lt_one.trans_le one_le).ne'
  refine ⟨t, at_t, nonneg, one_le, ?_, Binary64.rounded_nonneg share_nonneg,
    Binary64.rounded_le_of_value? Binary64.value?_one share_le⟩
  exact Binary64.value?_of_abs_le divided (by rw [abs_of_nonneg share_nonneg]; linarith)

/-- The logistic function keeps the order of floats. -/
theorem sigmoid_le_sigmoid (le : x ≤ y) : sigmoid x ≤ sigmoid y := by
  obtain ⟨number, le⟩ := Binary64.le_iff.mp le
  obtain ⟨u, at_u⟩ := WithBot.ne_bot_iff_exists.mp number
  obtain ⟨v, at_v⟩ := WithBot.ne_bot_iff_exists.mp (ne_bot_of_le_ne_bot number le)
  obtain ⟨t, at_t, -, -, at_x, -⟩ := exists_value?_sigmoid x
  obtain ⟨s, at_s, -, one_le, at_y, -⟩ := exists_value?_sigmoid y
  -- negation turns the order around, and so does the reciprocal
  have negated : level (-y) ≤ level (-x) := by
    rw [← at_u, ← at_v, WithBot.coe_le_coe] at le
    rw [Binary64.level_neg at_u.symm, Binary64.level_neg at_v.symm, WithBot.coe_le_coe]
    exact neg_le_neg le
  have exponentials := level_tableExp_le (by simp [Binary64.level_neg at_v.symm]) negated
  rw [Binary64.level_of_value? at_s, Binary64.level_of_value? at_t, WithBot.coe_le_coe]
    at exponentials
  rw [Binary64.le_iff, Binary64.level_of_value? at_x, Binary64.level_of_value? at_y,
    WithBot.coe_le_coe]
  refine ⟨WithBot.coe_ne_bot, Rounding.rounded_mono _ ?_⟩
  refine one_div_le_one_div_of_le (zero_lt_one.trans_le one_le) ?_
  exact Rounding.rounded_mono _ (add_le_add_right exponentials 1)

/-- The share of a number in a row. -/
def share (row : List Float) (x : Float) : Float :=
  tableExp (x - largest row) / total row

theorem Splits.softmax_eq_map (splits : Splits row ts S) :
    Exponential.softmax row = row.map (share row) := by
  rw [softmax_eq, if_pos splits.divides, Exponential.terms, List.map_map]
  rfl

/-- The shares of a row are ordered as its numbers are. -/
theorem Splits.share_le_share (splits : Splits row ts S)
    (numbers : ∀ x ∈ row, ∃ v, value? x = some v) (x_member : x ∈ row) (le : x ≤ y) :
    share row x ≤ share row y := by
  obtain ⟨-, le⟩ := Binary64.le_iff.mp le
  obtain ⟨w, at_w⟩ := numbers _ (largest_mem numbers (List.ne_nil_of_mem x_member))
  obtain ⟨v, at_v⟩ := numbers x x_member
  obtain ⟨t, at_t, -⟩ := tableExp_between (x - largest row)
  have difference : level (x - largest row) ≤ level (y - largest row) := by
    rw [Binary64.level_sub_value at_w, Binary64.level_sub_value at_w]
    exact Binary64.lift_mono (fun _ _ le => sub_le_sub_right le w) le
  have exponentials := level_tableExp_le (by simp [Binary64.level_sub at_v at_w]) difference
  rw [Binary64.le_iff, share, share]
  constructor
  · simp [Binary64.level_div at_t splits.total splits.pos.ne']
  · rw [Binary64.level_div_of_pos splits.total splits.pos,
      Binary64.level_div_of_pos splits.total splits.pos]
    exact Binary64.lift_mono (fun _ _ le => div_le_div_of_nonneg_right le splits.pos.le)
      exponentials

end FixedPointNet.Exponential
