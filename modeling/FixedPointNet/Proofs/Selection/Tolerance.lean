import FixedPointNet.Proofs.Selection.Best
import Mathlib.Data.Prod.Lex

/-!
# A larger tolerance costs no more

A larger tolerance lowers the threshold, in double precision too, so that every point that
qualified still does. Among more qualifying points, the cheapest one has fewer registers, or as many
and stands no later.
-/

namespace FixedPointNet.Selection

open Binary64 (level)

variable {points : List Point} {p p' : Point} {threshold threshold' tight loose : Float}
  {index index' : Nat}

/-- A selection has the best accuracy of another one, and its point comes no later in the order of
    registers, then positions. -/
structure NoCostlier (points : List Point) (s' s : Selection) : Prop where
  bestAccuracy : s'.bestAccuracy = s.bestAccuracy
  selected : ∃ p p', points[s.index]? = some p ∧ points[s'.index]? = some p' ∧
    toLex (p'.registers, s'.index) ≤ toLex (p.registers, s.index)

/-- A point qualifies below any threshold that it reaches. -/
theorem qualifies_of_level_le (le : level threshold' ≤ level threshold)
    (qualified : qualifies threshold p = true) : qualifies threshold' p = true := by
  obtain ⟨number, reaches⟩ := qualifies_iff.mp qualified
  refine qualifies_iff.mpr ⟨number, fun below => reaches ?_⟩
  rw [Binary64.lt_iff] at below ⊢
  exact ⟨below.1, below.2.trans_le le⟩

/-- The cheapest of more qualifying points comes no later in the order of registers, then
    positions. -/
theorem IsCheapest.toLex_le (cheapest : IsCheapest threshold points index p)
    (cheapest' : IsCheapest threshold' points index' p')
    (nested : ∀ q, qualifies threshold q = true → qualifies threshold' q = true) :
    toLex (p'.registers, index') ≤ toLex (p.registers, index) := by
  have still := nested p cheapest.qualified
  have least := cheapest'.least p (List.mem_of_getElem? cheapest.at_index) still
  rw [Prod.Lex.toLex_le_toLex]
  by_cases fewer : p'.registers < p.registers
  · exact .inl fewer
  · have same : p'.registers = p.registers := by omega
    refine .inr ⟨same, not_lt.mp fun later => fewer ?_⟩
    exact cheapest'.earliest p (mem_take_of_getElem? cheapest.at_index later) still

theorem Tolerable.loosen (tolerable : Tolerable tight) (finite : loose.isFinite = true)
    (le : tight ≤ loose) : Tolerable loose where
  finite := finite
  nonneg := by
    have nonneg := Binary64.le_iff.mp tolerable.nonneg
    have grows := Binary64.le_iff.mp le
    exact Binary64.le_iff.mpr ⟨nonneg.1, nonneg.2.trans grows.2⟩

/-- A larger tolerance does not raise the threshold, also below an infinite accuracy. -/
theorem Tolerable.level_threshold_le (tolerable : Tolerable tight)
    (finite : loose.isFinite = true) (le : tight ≤ loose) (best : Float) :
    level (best - loose) ≤ level (best - tight) := by
  obtain ⟨t, at_tight⟩ := Binary64.isFinite_iff.mp tolerable.finite
  obtain ⟨t', at_loose⟩ := Binary64.isFinite_iff.mp finite
  have grows := (Binary64.le_iff.mp le).2
  rw [Binary64.level_of_value? at_tight, Binary64.level_of_value? at_loose,
    WithBot.coe_le_coe] at grows
  rw [Binary64.level_sub_value at_tight, Binary64.level_sub_value at_loose]
  exact Binary64.lift_le_lift (fun v => sub_le_sub_left grows v) _

/-- A larger tolerance selects a point with fewer registers, or one with as many that stands no
    later. -/
theorem ofPoints_loosened (tolerable : Tolerable tight) (finite : loose.isFinite = true)
    (le : tight ≤ loose) (some_number : ∃ p ∈ points, p.accuracy.isNaN = false) :
    ∃ s s', ofPoints points tight = .ok s ∧ ofPoints points loose = .ok s' ∧
      NoCostlier points s' s := by
  obtain ⟨q, member, number⟩ := some_number
  have number : isNumber q = true := by rw [isNumber, number]; rfl
  obtain ⟨s, ok, -⟩ := tolerable.exists_ofPoints member number
  obtain ⟨s', ok', -⟩ := (tolerable.loosen finite le).exists_ofPoints member number
  obtain ⟨best, below, p, cheapest⟩ := ofPoints_eq_ok ok
  obtain ⟨best', below', p', cheapest'⟩ := ofPoints_eq_ok ok'
  have same : s'.bestAccuracy = s.bestAccuracy := by rw [best', best]
  have lowers : level s'.threshold ≤ level s.threshold := by
    rw [below', below, same]
    exact tolerable.level_threshold_le finite le s.bestAccuracy
  refine ⟨s, s', ok, ok', same, p, p', cheapest.at_index, cheapest'.at_index, ?_⟩
  exact cheapest.toLex_le cheapest' fun q => qualifies_of_level_le lowers

/-- Two points that trade accuracy for registers, behind one whose accuracy is not a number. -/
def traded : List Point :=
  [⟨0 / 0, 1⟩, ⟨0.9, 35⟩, ⟨0.89, 20⟩]

/-- Ten times the tolerance admits a cheaper point that stands later. -/
theorem ofPoints_loosened_tenfold :
    Tolerable 0.001 ∧ (0.01 : Float).isFinite = true ∧ (0.001 : Float) ≤ 0.01 ∧
      ∃ s s', ofPoints traded 0.001 = .ok s ∧ ofPoints traded 0.01 = .ok s' ∧
        s.index = 1 ∧ s'.index = 2 ∧ NoCostlier traded s' s := by
  have tolerable : Tolerable 0.001 := ⟨by decide +kernel, by decide +kernel⟩
  have finite : (0.01 : Float).isFinite = true := by decide +kernel
  have le : (0.001 : Float) ≤ 0.01 := by decide +kernel
  have number : ∃ p ∈ traded, p.accuracy.isNaN = false :=
    ⟨⟨0.9, 35⟩, by simp [traded], by decide +kernel⟩
  obtain ⟨s, s', ok, ok', noCostlier⟩ := ofPoints_loosened tolerable finite le number
  have tight : ofPoints traded 0.001 = .ok ⟨1, 0.9, 0.9 - 0.001⟩ := rfl
  have loose : ofPoints traded 0.01 = .ok ⟨2, 0.9, 0.9 - 0.01⟩ := rfl
  obtain rfl := Except.ok.inj (ok.symm.trans tight)
  obtain rfl := Except.ok.inj (ok'.symm.trans loose)
  exact ⟨tolerable, finite, le, _, _, ok, ok', rfl, rfl, noCostlier⟩

end FixedPointNet.Selection
