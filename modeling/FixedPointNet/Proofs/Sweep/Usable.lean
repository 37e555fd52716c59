import FixedPointNet.Proofs.Evaluator
import FixedPointNet.Proofs.Pruning.Counts
import FixedPointNet.Proofs.Settings.Grid
import FixedPointNet.Proofs.Sweep.Run

/-!
# Grids that a sweep can prune at

A grid can be pruned at when its ratios are shares. Valid settings alone do not make it one: an
infinite step leaves a ratio that is not a number, and a stop just below one may be overstepped or
snapped to one. Nothing else goes wrong, and neither does for a finite step and a stop of at most
0.999999998.
-/

namespace FixedPointNet

open Binary64 (value? level limit)

/-- An evaluator that does not refuse removals. -/
def Evaluator.RefusesNoRemoval (evaluator : Evaluator) : Prop :=
  ∀ n data layer remove width,
    (evaluator n data).outcome ≠ .error (.error (.invalidRemoval layer remove width))

/-- Networks that a sweep is for: there is a hidden layer, and no hidden layer is empty. -/
structure Network.Prunable (n : Network Parameter) : Prop where
  wellFormed : n.WellFormed
  deep : 2 ≤ n.layers.length
  positive : ∀ l ∈ n.hidden, 0 < l.outputs

/-- A network can be pruned at a ratio that keeps its distance from one. -/
theorem Network.Prunable.exists_pruneRatio {n : Network Parameter} {ratio : Float}
    (prunable : n.Prunable) (between : (0 : ℚ) ≤ level ratio ∧ level ratio ≤ (1 - 1 / 2 ^ 40 : ℚ)) :
    ∃ p, n.pruneRatio ratio = .ok p :=
  ⟨_, prunable.wellFormed.prune_eq
    (Network.removable_removalCounts prunable.deep prunable.positive between.1 between.2)⟩

/-- A sweep that can prune at every ratio of its grid does not fail with a refused removal. -/
theorem Sweep.run_ne_invalidRemoval {s : Sweep} {n : Network Parameter} (deep : 2 ≤ n.layers.length)
    (prunes : ∀ ratio ∈ s.settings.ratios, ∃ p, n.pruneRatio ratio = .ok p)
    (evaluates : ∀ position, (s.reference position).RefusesNoRemoval) (data : Dataset)
    (layer remove width : Nat) :
    (s.run n data).outcome ≠ .error (.error (.invalidRemoval layer remove width)) := by
  intro failed
  rcases (Sweep.run_eq_error_iff deep).mp failed with ⟨-, mismatch⟩ | ⟨-, failed | unselected⟩
  · cases mismatch
  · obtain ⟨k, ratio, at_k, failed, -⟩ := Sweep.evaluateGrid_eq_error_iff.mp failed
    obtain ⟨stage, -, fails⟩ := Sweep.evaluatePoint_eq_error_iff.mp failed
    cases fails with
    | pruning refused =>
      obtain ⟨p, ok⟩ := prunes ratio (List.mem_of_getElem? at_k)
      rw [ok] at refused
      cases refused
    | reference _ refused => exact evaluates _ _ _ _ _ _ refused
    | fixedPoint _ _ refused =>
      obtain ⟨expected, got, mismatch⟩ := (Evaluator.arithmetic_fixedPoint _ _ _).refusal refused
      cases mismatch
  · obtain ⟨outcomes, cause, -, refused, same⟩ := unselected
    cases same
    obtain ⟨-, none⟩ | ⟨best, threshold, none⟩ := Selection.ofPoints_eq_error refused
    all_goals cases none

namespace Settings

/-- Every ratio of the grid is a share, every network can be pruned at it, and no sweep over the
    grid fails because a removal would leave a layer without neurons. -/
structure Usable (s : Settings) : Prop where
  share : ∀ ratio ∈ s.ratios, isShare ratio = true
  prunes : ∀ ratio ∈ s.ratios, ∀ n : Network Parameter, n.Prunable →
    ∃ p, n.pruneRatio ratio = .ok p
  runs : ∀ reference clock sweep, Sweep.ofSettings s reference clock = .ok sweep →
    (∀ position, (reference position).RefusesNoRemoval) → ∀ n : Network Parameter, n.Prunable →
      ∀ data layer remove width,
        (sweep.run n data).outcome ≠ .error (.error (.invalidRemoval layer remove width))

variable {s : Settings}

theorem Numbers.usable {a b w : ℚ} (numbers : s.Numbers a b w) (inRange : s.InRange)
    (last : level (s.ratioAt s.stepCount) < (1 : ℚ)) : s.Usable := by
  have between : ∀ ratio ∈ s.ratios,
      (0 : ℚ) ≤ level ratio ∧ level ratio ≤ (1 - 1 / 2 ^ 40 : ℚ) := by
    rw [inRange.ratios_eq]
    intro ratio member
    obtain ⟨k, in_range, rfl⟩ := List.mem_map.mp member
    exact numbers.ratioAt_between inRange last (Nat.le_of_lt_succ (List.mem_range.mp in_range))
  have below : ((1 - 1 / 2 ^ 40 : ℚ) : WithBot ℚ) < (1 : ℚ) := by
    rw [WithBot.coe_lt_coe]
    norm_num
  refine ⟨?_, ?_, ?_⟩
  · intro ratio member
    obtain ⟨nonneg, le⟩ := between ratio member
    exact isShare_iff_level.mpr ⟨nonneg, le.trans_lt below⟩
  · intro ratio member n prunable
    exact prunable.exists_pruneRatio (between ratio member)
  · intro reference clock sweep valid evaluates n prunable
    obtain ⟨-, rfl, rfl, -⟩ := Sweep.ofSettings_eq_ok valid
    exact Sweep.run_ne_invalidRemoval prunable.deep
      (fun ratio member => prunable.exists_pruneRatio (between ratio member)) evaluates

/-- Valid settings have a usable grid exactly when their step is finite and their last ratio is
    below one. A finite step and a stop of at most 0.999999998 are enough. -/
theorem usable_iff (valid : s.check = .ok ()) :
    (s.Usable ↔ s.pruneStep < Binary64.infinity ∧ s.ratioAt s.stepCount < 1) ∧
      (s.pruneStep < Binary64.infinity → s.pruneStop ≤ 0.999999998 → s.Usable) := by
  have inRange := check_eq_ok_iff.mp valid
  have one : level 1 = (1 : ℚ) := Binary64.level_of_value? (by decide +kernel)
  refine ⟨⟨?_, ?_⟩, ?_⟩
  · intro usable
    have member (k : Nat) (le : k ≤ s.stepCount) : s.ratioAt k ∈ s.ratios := by
      rw [inRange.ratios_eq]
      exact List.mem_map_of_mem (List.mem_range.mpr (Nat.lt_succ_of_le le))
    have last := isShare_iff_level.mp (usable.share _ (member _ (Nat.le_refl _)))
    refine ⟨inRange.step_lt_infinity (usable.share _ (member 0 (Nat.zero_le _))), ?_⟩
    rw [Binary64.lt_iff, one]
    exact ⟨ne_bot_of_le_ne_bot WithBot.coe_ne_bot last.1, last.2⟩
  · rintro ⟨finite, last⟩
    obtain ⟨w, step⟩ := inRange.step_lt_infinity_iff.mp finite
    obtain ⟨a, b, numbers⟩ := inRange.numbers step
    rw [Binary64.lt_iff, one] at last
    exact numbers.usable inRange last.2
  · intro finite distant
    obtain ⟨w, step⟩ := inRange.step_lt_infinity_iff.mp finite
    obtain ⟨a, b, numbers⟩ := inRange.numbers step
    have bound : value? 0.999999998 = some (9007199236726593 / 2 ^ 53) := by decide +kernel
    rw [Binary64.le_iff, Binary64.level_of_value? numbers.stop, Binary64.level_of_value? bound,
      WithBot.coe_le_coe] at distant
    apply numbers.usable inRange
    apply numbers.level_ratioAt_lt_one
    refine distant.2.trans ?_
    norm_num

/-- A grid whose second ratio lies between its stop and one. -/
def overstepping : Settings :=
  ⟨8, 0, 0, 0.999999998, 0.9999999985, false⟩

/-- A grid that oversteps its stop can be usable. -/
theorem usable_overstepping : overstepping.check = .ok () ∧
    overstepping.pruneStop < overstepping.ratioAt overstepping.stepCount ∧ overstepping.Usable := by
  have valid : overstepping.check = .ok () := rfl
  have enough := (usable_iff valid).2
  exact ⟨valid, by decide +kernel, enough (by decide +kernel) (by decide +kernel)⟩

/-- A grid of the greatest number below one, which is snapped to one. -/
def nearOne : Settings :=
  ⟨8, 0, 0.9999999999999999, 0.9999999999999999, 0.5, false⟩

/-- A grid whose second ratio is one, past the stop. -/
def pastStop : Settings :=
  ⟨8, 0, 0, 1 - 1 / 1099511627776, 1, false⟩

/-- A grid with an infinite step. -/
def endless : Settings :=
  ⟨8, 0, 0.5, 0.75, Binary64.infinity, false⟩

/-- Valid settings can have the ratio one, at which pruning and a sweep are refused, or a ratio that
    is not a number. -/
theorem exists_valid_unusable :
    (nearOne.check = .ok () ∧ 1 ∈ nearOne.ratios ∧ Network.small.Prunable ∧
      Network.small.pruneRatio 1 = .error (.error (.invalidRemoval 0 3 3)) ∧
      ∃ sweep, Sweep.ofSettings nearOne (fun _ => Evaluator.floating) Clock.unlimited = .ok sweep ∧
        (sweep.run Network.small ⟨[1, 0.5], [1], 2⟩).outcome =
          .error (.error (.invalidRemoval 0 3 3))) ∧
    (pastStop.check = .ok () ∧ 1 ∈ pastStop.ratios) ∧
    (endless.check = .ok () ∧ ∃ ratio ∈ endless.ratios, ratio.isNaN = true) := by
  have prunable : Network.small.Prunable := ⟨Network.wellFormed_small, by decide, by decide⟩
  have refused : Network.small.pruneRatio 1 = .error (.error (.invalidRemoval 0 3 3)) := by
    have all : Network.small.removalCounts 1 = [3] := by decide +kernel
    rw [Network.pruneRatio, all]
    rfl
  have single : nearOne.ratios = [1] := by decide +kernel
  let sweep : Sweep := ⟨nearOne, ⟨8, by decide⟩, fun _ => Evaluator.floating, Clock.unlimited⟩
  have failed : (sweep.run Network.small ⟨[1, 0.5], [1], 2⟩).outcome =
      .error (.error (.invalidRemoval 0 3 3)) := by
    refine (Sweep.run_eq_error_iff (by decide)).mpr (.inr ⟨rfl, .inl ?_⟩)
    refine Sweep.evaluateGrid_eq_error_iff.mpr ⟨0, 1, by rw [single]; rfl, ?_, nofun⟩
    exact Sweep.evaluatePoint_eq_error_iff.mpr ⟨.pruning, fun _ _ => rfl, .pruning refused⟩
  have past : pastStop.ratios = [0, 1] := by decide +kernel
  have no_number : endless.ratios = [0 / 0] := by decide +kernel
  refine ⟨⟨rfl, ?_, prunable, refused, sweep, rfl, failed⟩, ⟨rfl, ?_⟩, rfl, 0 / 0, ?_, ?_⟩
  · rw [single]
    exact List.mem_singleton_self 1
  · rw [past]
    exact List.mem_cons_of_mem 0 (List.mem_singleton_self 1)
  · rw [no_number]
    exact List.mem_singleton_self _
  · decide +kernel

end Settings

end FixedPointNet
