import FixedPointNet.Proofs.Binary64.Maximum
import FixedPointNet.Proofs.Binary64.Sums
import FixedPointNet.Proofs.Exponential.Table

/-!
# Shares of a row

The largest number of a row is subtracted from all of them, so that its exponential is one and no
exponential is greater. Divided by their sum they are shares. A share scaled by `2 ^ B` and floored
vanishes where it is below one part in `2 ^ B`: all of them vanish exactly when the sum of the
exponentials is above `2 ^ B`. What is left never adds up to more than twice `2 ^ B`, whatever the
running sum has lost.
-/

namespace FixedPointNet.Exponential

open Binary64 (value? level rounded limit Numbers Shares runningSum)

/-- The largest number of a row. -/
def largest (row : List Float) : Float :=
  row.foldl Binary64.maxNumber Binary64.negInfinity

/-- The exponentials of a row, less its largest number. -/
def terms (row : List Float) : List Float :=
  row.map fun x => tableExp (x - largest row)

/-- The sum of the exponentials. -/
def total (row : List Float) : Float :=
  (terms row).foldl (· + ·) 0

theorem softmax_eq (row : List Float) : softmax row =
    if 0 < total row then (terms row).map (· / total row) else terms row := rfl

variable {row : List Float} {ts : List ℚ} {x : Float} {s t v S : ℚ} {B : Nat}

/-- The largest number of a row of numbers is one of them. -/
theorem largest_mem (numbers : ∀ x ∈ row, ∃ v, value? x = some v) (nonempty : row ≠ []) :
    largest row ∈ row := by
  have ends := Binary64.foldl_maxNumber_mem Binary64.negInfinity row
  rcases List.mem_cons.mp ends with start | member
  · obtain ⟨x, member⟩ := List.exists_mem_of_ne_nil row nonempty
    obtain ⟨v, at_v⟩ := numbers x member
    have le := Binary64.level_le_foldl_maxNumber Binary64.negInfinity row x
      (List.mem_cons_of_mem _ member)
    rw [start, Binary64.level_negInfinity, Binary64.level_of_value? at_v,
      WithBot.coe_le_coe] at le
    have above := (abs_lt.mp (Binary64.abs_lt_limit at_v)).1
    exact absurd le above.not_ge
  · exact member

/-- The exponentials of a row: none is negative, none is above one, and one of them is one. -/
theorem exists_terms (numbers : ∀ x ∈ row, ∃ v, value? x = some v) (nonempty : row ≠ []) :
    ∃ ts, Numbers (terms row) ts ∧ Shares ts ∧ 1 ∈ ts := by
  have member := largest_mem numbers nonempty
  obtain ⟨w, at_w⟩ := numbers _ member
  have difference : ∀ x ∈ row, level (x - largest row) ≠ ⊥ ∧ level (x - largest row) ≤ (0 : ℚ) := by
    intro x x_member
    obtain ⟨v, at_v⟩ := numbers x x_member
    have le := Binary64.level_le_foldl_maxNumber Binary64.negInfinity row x
      (List.mem_cons_of_mem _ x_member)
    rw [← largest, Binary64.level_of_value? at_v, Binary64.level_of_value? at_w,
      WithBot.coe_le_coe] at le
    have nonpos := Rounding.rounded_mono .binary64 (show v - w ≤ 0 by linarith)
    rw [Rounding.rounded_zero] at nonpos
    rw [Binary64.level_sub at_v at_w]
    exact ⟨WithBot.coe_ne_bot, WithBot.coe_le_coe.mpr nonpos⟩
  have each : ∀ x ∈ row, ∃ t, value? (tableExp (x - largest row)) = some t ∧ 0 ≤ t ∧ t ≤ 1 :=
    fun x x_member => exists_value?_tableExp (difference x x_member).1 (difference x x_member).2
  obtain ⟨ts, terms_numbers, shares⟩ := Binary64.exists_numbers each
  refine ⟨ts, terms_numbers, shares, ?_⟩
  exact terms_numbers.mem (List.mem_map_of_mem member)
    (value?_tableExp_of_zero (Binary64.level_sub_self at_w))

/-- What the exponentials of a row and their sum amount to. -/
structure Splits (row : List Float) (ts : List ℚ) (S : ℚ) : Prop where
  terms : Numbers (terms row) ts
  shares : Shares ts
  one_mem : 1 ∈ ts
  total : value? (total row) = some S
  running : runningSum 0 ts = S

theorem exists_splits (numbers : ∀ x ∈ row, ∃ v, value? x = some v) (nonempty : row ≠ []) :
    ∃ ts S, Splits row ts S := by
  obtain ⟨ts, terms_numbers, shares, one_mem⟩ := exists_terms numbers nonempty
  obtain ⟨at_total, -⟩ :=
    Binary64.value?_foldl_add terms_numbers shares Binary64.value?_zero le_rfl (by norm_num)
  exact ⟨ts, _, terms_numbers, shares, one_mem, at_total, rfl⟩

namespace Splits

theorem le_two_pow (splits : Splits row ts S) : S ≤ 2 ^ 53 := by
  have bounded := Binary64.value?_foldl_add splits.terms splits.shares Binary64.value?_zero
    le_rfl (by norm_num)
  exact splits.running.symm.trans_le bounded.2.2

theorem one_le (splits : Splits row ts S) : 1 ≤ S := by
  have le := Binary64.le_runningSum_of_mem splits.terms splits.shares Binary64.value?_zero
    le_rfl (by norm_num) 1 splits.one_mem
  exact le.trans_eq splits.running

theorem pos (splits : Splits row ts S) : 0 < S :=
  zero_lt_one.trans_le splits.one_le

/-- No term is more than the whole. -/
theorem div_between (splits : Splits row ts S) : ∀ t ∈ ts, 0 ≤ t / S ∧ t / S ≤ 1 := by
  intro t member
  obtain ⟨nonneg, le⟩ := splits.shares t member
  exact ⟨div_nonneg nonneg splits.pos.le, (div_le_one splits.pos).mpr (le.trans splits.one_le)⟩

theorem le_length (splits : Splits row ts S) (few : row.length < 2 ^ 53) : S ≤ row.length := by
  have count : ts.length = row.length := by
    rw [← splits.terms.length_eq, Exponential.terms, List.length_map]
  have le := Binary64.runningSum_le (n := 0) splits.shares Nat.cast_zero.ge (by omega)
  rwa [splits.running, Nat.cast_zero, zero_add, count] at le

/-- There is a sum to divide by. -/
theorem divides (splits : Splits row ts S) : 0 < Exponential.total row := by
  rw [Binary64.lt_iff, Binary64.level_of_value? splits.total, Binary64.level_zero]
  exact ⟨WithBot.coe_ne_bot, WithBot.coe_lt_coe.mpr splits.pos⟩

/-- The shares are the rounded quotients. -/
theorem softmax (splits : Splits row ts S) :
    Numbers (softmax row) (ts.map fun t => rounded (t / S)) := by
  rw [softmax_eq, if_pos splits.divides]
  refine splits.terms.map fun x t member at_t => ?_
  obtain ⟨nonneg, le_one⟩ := splits.div_between t member
  apply Binary64.value?_of_abs_le (Binary64.level_div at_t splits.total splits.pos.ne')
  rw [abs_of_nonneg nonneg]
  linarith

/-- Every share is between zero and one. -/
theorem share_between (splits : Splits row ts S) :
    ∀ t ∈ ts, 0 ≤ rounded (t / S) ∧ rounded (t / S) ≤ 1 := by
  intro t member
  obtain ⟨nonneg, le_one⟩ := splits.div_between t member
  exact ⟨Binary64.rounded_nonneg nonneg,
    Binary64.rounded_le_of_value? Binary64.value?_one le_one⟩

end Splits

/-- A share, scaled by `2 ^ B` and floored. -/
def scaledShare (B : Nat) (S t : ℚ) : ℤ :=
  ⌊rounded (t / S) * 2 ^ B⌋

/-- A term whose share does not vanish moves the running sum: rounding takes nearly nothing of
    it. -/
theorem scaledShare_mul_le (few : B ≤ 30) (at_s : value? x = some s) (s_nonneg : 0 ≤ s)
    (s_le : s ≤ S) (one_le : 1 ≤ S) (S_le : S ≤ 2 ^ 53) (t_nonneg : 0 ≤ t) (t_le : t ≤ 1) :
    scaledShare B S t * S ≤ 2 ^ B * 2 * (rounded (s + t) - s) := by
  have scale : (0 : ℚ) < 2 ^ B := pow_pos two_pos B
  have grows := Binary64.le_rounded_add at_s t_nonneg
  have positive : 0 < S := zero_lt_one.trans_le one_le
  rcases le_or_gt (scaledShare B S t) 0 with vanishes | counts
  · have nonpos : (scaledShare B S t : ℚ) ≤ 0 := by exact_mod_cast vanishes
    calc scaledShare B S t * S ≤ 0 := mul_nonpos_of_nonpos_of_nonneg nonpos positive.le
      _ ≤ 2 ^ B * 2 * (rounded (s + t) - s) :=
        mul_nonneg (by linarith) (sub_nonneg.mpr grows)
  · have scale_le : (2 : ℚ) ^ B ≤ 2 ^ 30 := pow_le_pow_right₀ one_le_two few
    have share_nonneg : 0 ≤ t / S := div_nonneg t_nonneg positive.le
    have share_le := Binary64.rounded_le_roundedUp share_nonneg
    have rounded_nonneg := Binary64.rounded_nonneg share_nonneg
    have floored : (scaledShare B S t : ℚ) ≤ rounded (t / S) * 2 ^ B := Int.floor_le _
    have one_le_scaled : (1 : ℚ) ≤ rounded (t / S) * 2 ^ B := by
      have counts' : (1 : ℚ) ≤ scaledShare B S t := by exact_mod_cast counts
      exact counts'.trans floored
    -- the share is at least about 2 ^ (-30), so the term is not lost beside the running sum
    have large : 1 / 2 ^ 31 ≤ t / S := by
      have widened := one_le_scaled.trans (mul_le_mul_of_nonneg_left scale_le rounded_nonneg)
      rw [Binary64.roundedUp] at share_le
      linarith
    have term_large : S / 2 ^ 31 ≤ t := by
      have scaled := mul_le_mul_of_nonneg_right large positive.le
      rw [div_mul_cancel₀ t positive.ne'] at scaled
      linarith
    have moves := Binary64.roundedDown_le_rounded (add_nonneg s_nonneg t_nonneg)
      (show s + t ≤ limit by linarith [Binary64.two_pow_lt_limit])
    have product : Binary64.roundedUp (t / S) * S = t * (1 + 1 / 10 ^ 15) + S / 10 ^ 30 := by
      rw [Binary64.roundedUp]
      field_simp
    have step : Binary64.roundedUp (t / S) * S ≤ 2 * (rounded (s + t) - s) := by
      rw [product]
      rw [Binary64.roundedDown] at moves
      linarith
    calc scaledShare B S t * S
        ≤ rounded (t / S) * 2 ^ B * S := mul_le_mul_of_nonneg_right floored positive.le
      _ ≤ Binary64.roundedUp (t / S) * 2 ^ B * S := by
        have scaled := mul_le_mul_of_nonneg_right share_le scale.le
        exact mul_le_mul_of_nonneg_right scaled positive.le
      _ = 2 ^ B * (Binary64.roundedUp (t / S) * S) := by ring
      _ ≤ 2 ^ B * (2 * (rounded (s + t) - s)) := mul_le_mul_of_nonneg_left step scale.le
      _ = 2 ^ B * 2 * (rounded (s + t) - s) := (mul_assoc _ _ _).symm

theorem scaledShare_pos_iff : 0 < scaledShare B S t ↔ 1 / 2 ^ B ≤ rounded (t / S) := by
  have scale : (0 : ℚ) < 2 ^ B := pow_pos two_pos B
  rw [Int.lt_iff_add_one_le, zero_add, scaledShare, Int.le_floor, Int.cast_one, div_le_iff₀ scale]

theorem rounded_one_div_two_pow (few : B ≤ 30) : rounded (1 / 2 ^ B) = 1 / 2 ^ B := by
  have fits : |(1 : ℤ)| < 2 ^ 53 := by norm_num
  have exact := Binary64.representable_div_two_pow fits (show B ≤ 1000 by omega)
  have below := Binary64.lt_limit_of_le_two_pow (Binary64.abs_div_two_pow_le fits B)
  rw [Int.cast_one] at exact below
  exact Rounding.rounded_eq exact below

/-- One part in more than `2 ^ B` is not rounded up to one part in `2 ^ B`. -/
theorem rounded_one_div_lt (few : B ≤ 30) (at_S : value? x = some S) (above : 2 ^ B < S) :
    rounded (1 / S) < 1 / 2 ^ B := by
  have scale : (1 : ℚ) ≤ 2 ^ B := one_le_pow₀ one_le_two
  have scale_le : (2 : ℚ) ^ B ≤ 2 ^ 30 := pow_le_pow_right₀ one_le_two few
  have positive : 0 < S := by linarith
  have next := Binary64.two_pow_mul_le_of_lt (Binary64.representable at_S) above
  have share_le : 1 / S ≤ 1 / (2 ^ B * (1 + 1 / 2 ^ 52)) :=
    one_div_le_one_div_of_le (by positivity) next
  have share_le_one : 1 / S ≤ 1 := (div_le_one positive).mpr (by linarith)
  have moved := (abs_le.mp (Binary64.abs_rounded_sub_le (one_div_pos.mpr positive).le
    (share_le_one.trans (by linarith [Binary64.two_pow_lt_limit])))).2
  have least : 1 / 2 ^ 30 ≤ (1 : ℚ) / 2 ^ B := one_div_le_one_div_of_le (by positivity) scale_le
  have split : (1 : ℚ) / (2 ^ B * (1 + 1 / 2 ^ 52)) =
      1 / 2 ^ B * (2 ^ 52 / (2 ^ 52 + 1)) := by
    field_simp
  rw [split] at share_le
  norm_num at share_le moved least ⊢
  linarith

namespace Splits

theorem scaledShare_between (splits : Splits row ts S) (B : Nat) :
    ∀ t ∈ ts, 0 ≤ scaledShare B S t ∧ scaledShare B S t ≤ 2 ^ B := by
  intro t member
  obtain ⟨nonneg, le⟩ := splits.share_between t member
  exact Binary64.floor_mul_two_pow_between nonneg le B

/-- Some scaled share does not vanish exactly when the sum of the exponentials is at most the scale:
    the greatest share is one part in that sum. -/
theorem exists_scaledShare_pos_iff (splits : Splits row ts S) (few : B ≤ 30) :
    (∃ t ∈ ts, 0 < scaledShare B S t) ↔ S ≤ 2 ^ B := by
  constructor
  · rintro ⟨t, member, counts⟩
    by_contra! above
    have share_le : rounded (t / S) ≤ rounded (1 / S) :=
      Rounding.rounded_mono _ (div_le_div_of_nonneg_right (splits.shares t member).2 splits.pos.le)
    exact absurd ((scaledShare_pos_iff.mp counts).trans share_le)
      (rounded_one_div_lt few splits.total above).not_ge
  · intro le
    refine ⟨1, splits.one_mem, scaledShare_pos_iff.mpr ?_⟩
    have share_le := Rounding.rounded_mono .binary64 (one_div_le_one_div_of_le splits.pos le)
    exact (rounded_one_div_two_pow few).symm.trans_le share_le

/-- The scaled shares add up to no more than twice the scale. -/
theorem sum_scaledShare_le (splits : Splits row ts S) (few : B ≤ 30) :
    (ts.map (scaledShare B S)).sum ≤ 2 ^ B * 2 := by
  have whole := Binary64.sum_map_mul_le (f := fun t => (scaledShare B S t : ℚ)) splits.terms
    splits.shares Binary64.value?_zero le_rfl (by norm_num) splits.running.le
    fun x s t at_s s_nonneg s_le => scaledShare_mul_le few at_s s_nonneg s_le splits.one_le
      splits.le_two_pow
  rw [splits.running, sub_zero] at whole
  have sum_le := le_of_mul_le_mul_right whole splits.pos
  have cast : ((ts.map (scaledShare B S)).sum : ℚ) =
      (ts.map fun t => (scaledShare B S t : ℚ)).sum := by
    rw [Int.cast_list_sum, List.map_map]
    rfl
  rw [← cast] at sum_le
  exact_mod_cast sum_le

end Splits

/-- Equal numbers have exponentials that add up to their count. -/
theorem value?_total_replicate {k : Nat} (at_v : value? x = some v) (few : k < 2 ^ 53) :
    value? (total (.replicate k x)) = some (k : ℚ) := by
  have same : (List.replicate k (1 : ℤ)).map (fun n : ℤ => (n : ℚ) / 2 ^ 0) =
      (List.replicate k x).map fun _ => (1 : ℚ) := by simp
  have ones : Numbers (terms (.replicate k x))
      ((List.replicate k (1 : ℤ)).map fun n : ℤ => (n : ℚ) / 2 ^ 0) := by
    rw [same]
    refine Binary64.numbers_map fun y member => ?_
    have numbers : ∀ z ∈ List.replicate k x, ∃ w, value? z = some w := by
      intro z z_member
      rw [List.eq_of_mem_replicate z_member]
      exact ⟨v, at_v⟩
    have top := largest_mem numbers (List.ne_nil_of_mem member)
    rw [List.eq_of_mem_replicate member, List.eq_of_mem_replicate top]
    exact value?_tableExp_of_zero (Binary64.level_sub_self at_v)
  have summed := Binary64.value?_sum_exact (Nat.zero_le 1000) ones (by simp) (by simpa using few)
  simpa [total] using summed

end FixedPointNet.Exponential
