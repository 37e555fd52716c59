import FixedPointNet.Proofs.Binary64.Exact
import FixedPointNet.Proofs.Selection.Best

/-!
# Shares of samples are compared exactly

An accuracy is the number of hits over the number of samples, rounded. Among at most 100000 samples
and for a tolerance of whole millionths, a share that misses the threshold does so by at least
1e-11. The slack is less than that and more than what the roundings add up to, so the selection is
the one that exact arithmetic makes without a slack.
-/

namespace FixedPointNet.Selection

open Binary64 (value? level rounded)

/-- What a candidate has measured: the samples it classifies right, and its registers. -/
structure Measurement where
  hits : Nat
  registers : Nat

namespace Measurement

/-- The share of hits among the samples. -/
def share (samples : Nat) (m : Measurement) : ℚ :=
  m.hits / samples

/-- What the selection looks at: the share in double precision. -/
def point (samples : Nat) (m : Measurement) : Point :=
  ⟨Binary64.ofNat m.hits / Binary64.ofNat samples, m.registers⟩

/-- Whether the share reaches a threshold. -/
def reaches (samples : Nat) (threshold : ℚ) (m : Measurement) : Bool :=
  threshold ≤ m.share samples

end Measurement

/-- The selection in exact arithmetic: the first measurement that reaches the greatest share less
    the tolerance, and takes no more registers than any other one that does. -/
def exactIndex (samples : Nat) (tolerance : ℚ) (measured : List Measurement) : Option Nat := do
  let best ← (measured.map (Measurement.share samples)).max?
  let qualifying := measured.filter (Measurement.reaches samples (best - tolerance))
  measured.findIdx? fun m =>
    m.reaches samples (best - tolerance) &&
      qualifying.all fun other => m.registers ≤ other.registers

/-- Hits are counted among the same samples, of which there is one at least and 100000 at most. -/
structure Counted (samples : Nat) (measured : List Measurement) : Prop where
  positive : 0 < samples
  few : samples ≤ 100000
  hits_le : ∀ m ∈ measured, m.hits ≤ samples

variable {samples millionths index : Nat} {measured : List Measurement} {m : Measurement}
  {p : Point} {tolerance threshold : Float} {a b t best exact : ℚ}

/-- What is nearest to a share is a number. -/
theorem value?_of_between {x : Float} (nearest : level x = rounded a) (between : 0 ≤ a ∧ a ≤ 1) :
    value? x = some (rounded a) := by
  apply Binary64.value?_of_abs_le nearest
  rw [abs_of_nonneg between.1]
  linarith

theorem Counted.share_between (counted : Counted samples measured) (member : m ∈ measured) :
    0 ≤ m.share samples ∧ m.share samples ≤ 1 := by
  have divisor : (0 : ℚ) < samples := Nat.cast_pos.mpr counted.positive
  rw [Measurement.share, div_le_one divisor]
  exact ⟨by positivity, by exact_mod_cast counted.hits_le m member⟩

/-- Both counts are floats, so their quotient is rounded only once. -/
theorem Counted.level_accuracy (counted : Counted samples measured) (member : m ∈ measured) :
    level (m.point samples).accuracy = rounded (m.share samples) := by
  have hits_le := counted.hits_le m member
  have few := counted.few
  have nonzero : (samples : ℚ) ≠ 0 := Nat.cast_ne_zero.mpr counted.positive.ne'
  have at_hits := Binary64.value?_ofNat_of_le (show m.hits ≤ 2 ^ 53 by omega)
  have at_samples := Binary64.value?_ofNat_of_le (show samples ≤ 2 ^ 53 by omega)
  exact Binary64.level_div at_hits at_samples nonzero

/-- A share that misses the threshold misses it by more than the slack. -/
theorem share_add_le_of_lt {hits most : Nat} (positive : 0 < samples) (few : samples ≤ 100000)
    (misses : (hits / samples : ℚ) < most / samples - millionths / 10 ^ 6) :
    (hits / samples : ℚ) + 1 / 10 ^ 11 ≤ most / samples - millionths / 10 ^ 6 := by
  have divisor : (0 : ℚ) < samples := Nat.cast_pos.mpr positive
  have few' : (samples : ℚ) ≤ 100000 := by exact_mod_cast few
  -- over the common denominator the threshold and the share differ by a whole number
  obtain ⟨units, distance⟩ : ∃ units : ℤ,
      (most / samples - millionths / 10 ^ 6 - hits / samples : ℚ) = units / (samples * 10 ^ 6) := by
    refine ⟨most * 10 ^ 6 - millionths * samples - hits * 10 ^ 6, ?_⟩
    push_cast
    field_simp
    ring
  have positive_distance : (0 : ℚ) < units / (samples * 10 ^ 6) := by linarith
  rw [div_pos_iff_of_pos_right (by positivity), Int.cast_pos] at positive_distance
  have whole : (1 : ℚ) ≤ units := Int.cast_one_le_of_pos positive_distance
  have least : (1 / 10 ^ 11 : ℚ) ≤ units / (samples * 10 ^ 6) := by
    rw [div_le_div_iff₀ (by positivity) (by positivity)]
    linarith
  linarith

/-- Where a share misses the threshold by more than the slack or not at all, rounding does not
    change which. -/
theorem rounded_threshold_le_iff (a_between : 0 ≤ a ∧ a ≤ 1) (b_between : 0 ≤ b ∧ b ≤ 1)
    (t_between : 0 ≤ t ∧ t ≤ 1) (gap : a < b - t → a + 1 / 10 ^ 11 ≤ b - t) :
    rounded (rounded b - rounded t) ≤ rounded (rounded a + 4951760157141521 / 2 ^ 92) ↔
      b - t ≤ a := by
  have near {v : ℚ} (between : 0 ≤ v ∧ v ≤ 1) : |rounded v - v| ≤ 1 / 10 ^ 15 :=
    Binary64.abs_rounded_sub_le_of_abs_le (by rw [abs_of_nonneg between.1]; linarith)
  have a_near := abs_le.mp (near a_between)
  have b_near := abs_le.mp (near b_between)
  have t_near := abs_le.mp (near t_between)
  have difference := abs_le.mp <| Binary64.abs_rounded_sub_le_of_abs_le
    (show |rounded b - rounded t| ≤ 2 by rw [abs_le]; constructor <;> linarith)
  have sum := abs_le.mp <| Binary64.abs_rounded_sub_le_of_abs_le
    (show |rounded a + 4951760157141521 / 2 ^ 92| ≤ 2 by rw [abs_le]; constructor <;> linarith)
  by_cases misses : a < b - t
  · have far := gap misses
    simp only [not_le.mpr misses, iff_false, not_le]
    linarith
  · have reaches := not_lt.mp misses
    simp only [reaches, iff_true]
    linarith

/-- A tolerance is the float nearest to a number of millionths below one. -/
structure InMillionths (millionths : Nat) (tolerance : Float) : Prop where
  below_one : millionths < 10 ^ 6
  nearest : level tolerance = rounded (millionths / 10 ^ 6)

theorem InMillionths.between (inMillionths : InMillionths millionths tolerance) :
    0 ≤ (millionths / 10 ^ 6 : ℚ) ∧ (millionths / 10 ^ 6 : ℚ) ≤ 1 := by
  have below : (millionths : ℚ) < 10 ^ 6 := by exact_mod_cast inMillionths.below_one
  exact ⟨by positivity, (div_le_one (by positivity)).mpr below.le⟩

theorem InMillionths.tolerable (inMillionths : InMillionths millionths tolerance) :
    Tolerable tolerance where
  finite :=
    Binary64.isFinite_iff.mpr ⟨_, value?_of_between inMillionths.nearest inMillionths.between⟩
  nonneg := by
    have nonneg := Binary64.rounded_nonneg inMillionths.between.1
    rw [Binary64.le_iff, Binary64.level_zero, inMillionths.nearest, WithBot.coe_le_coe]
    exact ⟨WithBot.coe_ne_bot, nonneg⟩

/-- The greatest accuracy is the greatest share, rounded. -/
theorem Counted.level_greatestAccuracy (counted : Counted samples measured)
    (greatest : (measured.map (Measurement.share samples)).max? = some best) :
    level (greatestAccuracy (measured.map (Measurement.point samples))) = rounded best := by
  obtain ⟨attained, above⟩ := List.max?_eq_some_iff.mp greatest
  obtain ⟨m, member, rfl⟩ := List.mem_map.mp attained
  have m_point := List.mem_map_of_mem (f := Measurement.point samples) member
  have m_level := counted.level_accuracy member
  have number : isNumber (m.point samples) = true := by simp [isNumber_iff, m_level]
  apply le_antisymm
  · obtain ⟨q, q_point, same⟩ := exists_level_eq_greatestAccuracy m_point number
    obtain ⟨other, other_member, rfl⟩ := List.mem_map.mp q_point
    rw [← same, counted.level_accuracy other_member, WithBot.coe_le_coe]
    exact Rounding.rounded_mono .binary64 (above _ (List.mem_map_of_mem other_member))
  · rw [← m_level]
    exact level_le_greatestAccuracy m_point

/-- A point qualifies exactly if its share reaches the exact threshold. -/
theorem Counted.qualifies_point (counted : Counted samples measured)
    (inMillionths : InMillionths millionths tolerance)
    (greatest : (measured.map (Measurement.share samples)).max? = some best)
    (member : m ∈ measured) :
    qualifies (greatestAccuracy (measured.map (Measurement.point samples)) - tolerance)
      (m.point samples) = m.reaches samples (best - millionths / 10 ^ 6) := by
  have share_between := counted.share_between member
  have at_share := value?_of_between (counted.level_accuracy member) share_between
  have at_tolerance := value?_of_between inMillionths.nearest inMillionths.between
  obtain ⟨attained, -⟩ := List.max?_eq_some_iff.mp greatest
  obtain ⟨most, most_member, rfl⟩ := List.mem_map.mp attained
  have most_between := counted.share_between most_member
  have at_best := value?_of_between (counted.level_greatestAccuracy greatest) most_between
  have compared := rounded_threshold_le_iff share_between most_between inMillionths.between
    (share_add_le_of_lt counted.positive counted.few)
  rw [Bool.eq_iff_iff, qualifies_iff, Binary64.isNaN_eq_false_iff, Binary64.lt_iff,
    Binary64.level_add at_share value?_slack, Binary64.level_sub at_best at_tolerance,
    Binary64.level_of_value? at_share]
  simp [Measurement.reaches, compared]

/-- The scan and the exact rule find the same position. -/
theorem IsCheapest.findIdx?_eq
    (cheapest : IsCheapest threshold (measured.map (Measurement.point samples)) index p)
    (same : ∀ m ∈ measured, qualifies threshold (m.point samples) = m.reaches samples exact) :
    (measured.findIdx? fun m => m.reaches samples exact &&
      (measured.filter (Measurement.reaches samples exact)).all fun other =>
        m.registers ≤ other.registers) = some index := by
  have at_index := cheapest.at_index
  rw [List.getElem?_map, Option.map_eq_some_iff] at at_index
  obtain ⟨m, at_index, rfl⟩ := at_index
  obtain ⟨below, rfl⟩ := List.getElem?_eq_some_iff.mp at_index
  have member := List.getElem_mem below
  have reaches : measured[index].reaches samples exact = true := by
    rw [← same _ member, cheapest.qualified]
  rw [List.findIdx?_eq_some_iff_getElem]
  refine ⟨below, ?_, ?_⟩
  · simp only [reaches, Bool.true_and, List.all_eq_true, List.mem_filter, decide_eq_true_iff]
    intro other ⟨other_member, other_reaches⟩
    rw [← same other other_member] at other_reaches
    exact cheapest.least _ (List.mem_map_of_mem other_member) other_reaches
  · intro j before taken
    have j_below := before.trans below
    simp only [Bool.and_eq_true, List.all_eq_true, List.mem_filter, decide_eq_true_iff] at taken
    obtain ⟨j_reaches, no_more⟩ := taken
    have as_few := no_more _ ⟨member, reaches⟩
    have earlier :
        measured[j].point samples ∈ (measured.map (Measurement.point samples)).take index :=
      mem_take_of_getElem? (by simp [j_below]) before
    rw [← same _ (List.getElem_mem j_below)] at j_reaches
    have more := cheapest.earliest _ earlier j_reaches
    simp only [Measurement.point] at more
    omega

/-- A selection among shares is the one of exact arithmetic. -/
theorem ofPoints_eq_exactIndex (counted : Counted samples measured)
    (inMillionths : InMillionths millionths tolerance) (nonempty : measured ≠ []) :
    ∃ s, ofPoints (measured.map (Measurement.point samples)) tolerance = .ok s ∧
      exactIndex samples (millionths / 10 ^ 6) measured = some s.index := by
  obtain ⟨best, greatest⟩ :
      ∃ best, (measured.map (Measurement.share samples)).max? = some best := by
    rw [← Option.isSome_iff_exists, List.isSome_max?_iff]
    simpa using nonempty
  obtain ⟨m, member⟩ := List.exists_mem_of_ne_nil measured nonempty
  have number : isNumber (m.point samples) = true := by
    simp [isNumber_iff, counted.level_accuracy member]
  obtain ⟨s, ok, -⟩ :=
    inMillionths.tolerable.exists_ofPoints (List.mem_map_of_mem member) number
  obtain ⟨at_best, below, p, cheapest⟩ := ofPoints_eq_ok ok
  rw [below, at_best] at cheapest
  refine ⟨s, ok, ?_⟩
  rw [exactIndex, greatest]
  exact cheapest.findIdx?_eq fun m member => counted.qualifies_point inMillionths greatest member

/-- Of five candidates, two are within 0.01 of the best share, one of them exactly. -/
def fiveMeasured : List Measurement :=
  [⟨80, 50⟩, ⟨81, 40⟩, ⟨79, 30⟩, ⟨90, 35⟩, ⟨89, 20⟩]

theorem ofPoints_eq_exactIndex_five :
    Counted 100 fiveMeasured ∧ InMillionths 10000 0.01 ∧ fiveMeasured ≠ [] ∧
      ∃ s, ofPoints (fiveMeasured.map (Measurement.point 100)) 0.01 = .ok s ∧
        exactIndex 100 (10000 / 10 ^ 6) fiveMeasured = some s.index ∧ s.index = 4 := by
  have counted : Counted 100 fiveMeasured := ⟨by decide, by decide, by decide⟩
  have hundredth : (0.01 : Float) = Binary64.ofNat 1 / Binary64.ofNat 100 := rfl
  have inMillionths : InMillionths 10000 0.01 := by
    refine ⟨by decide, ?_⟩
    have quotient := Binary64.level_div (x := Binary64.ofNat 1) (y := Binary64.ofNat 100)
      (v := 1) (w := 100) (by decide +kernel) (by decide +kernel) (by norm_num)
    rw [hundredth, quotient]
    norm_num
  have nonempty : fiveMeasured ≠ [] := List.cons_ne_nil _ _
  obtain ⟨s, ok, same⟩ := ofPoints_eq_exactIndex counted inMillionths nonempty
  have exact : exactIndex 100 (10000 / 10 ^ 6) fiveMeasured = some 4 := by decide +kernel
  exact ⟨counted, inMillionths, nonempty, s, ok, same, Option.some.inj (same.symm.trans exact)⟩

end FixedPointNet.Selection
