import FixedPointNet.Proofs.Pruning.Counts
import FixedPointNet.Proofs.Selection
import FixedPointNet.Proofs.Sweep.Run

/-!
# What a sweep deploys

The ratios of a grid do not decrease, so that each candidate is pruned at least as much as the ones
before it, and takes as many registers only if it is pruned the same. The candidate with the fewest
registers among those that qualify is therefore the most heavily pruned one that qualifies, although
the selection takes the earliest of equal candidates.
-/

namespace FixedPointNet

/-- The accuracy of a candidate is a number and, with the slack of the selection, not below a
    threshold. -/
def Candidate.Qualifies (threshold : Float) (c : Candidate) : Prop :=
  c.accuracy.isNaN = false ∧ ¬ c.accuracy + 1e-12 < threshold

theorem Candidate.qualifies_point_iff {threshold : Float} {c : Candidate} :
    Selection.qualifies threshold c.point = true ↔ c.Qualifies threshold := by
  rw [Selection.qualifies_iff, Selection.slack, Candidate.Qualifies, Candidate.point]

/-- What a selected candidate has to reach. -/
def SweepResult.threshold (settings : Settings) (r : SweepResult) : Float :=
  r.selection.bestAccuracy - settings.tolerance

/-- The selected candidate qualifies, it is the cheapest one that does and the earliest of equally
    cheap ones, and its network is the one of the last candidate that qualifies: no qualifying
    candidate is pruned more in any layer. -/
structure SweepResult.DeploysHeaviest (settings : Settings) (r : SweepResult) : Prop where
  in_grid_order : (r.candidates.map Candidate.ratio).Sublist settings.ratios
  selected : r.candidates[r.selection.index]? = some r.best
  qualifies : r.best.Qualifies (r.threshold settings)
  cheapest : ∀ c ∈ r.candidates, c.Qualifies (r.threshold settings) →
    r.best.cost.registers ≤ c.cost.registers
  earliest : ∀ c ∈ r.candidates.take r.selection.index, c.Qualifies (r.threshold settings) →
    r.best.cost.registers < c.cost.registers
  last : ∀ k c, r.candidates[k]? = some c → c.Qualifies (r.threshold settings) →
    (∀ d ∈ r.candidates.drop (k + 1), ¬ d.Qualifies (r.threshold settings)) →
      r.best.network = c.network
  heaviest : ∀ c ∈ r.candidates, c.Qualifies (r.threshold settings) →
    List.Forall₂ (· ≤ ·) c.removed r.best.removed

/-- A candidate is pruned at least as much as an earlier one, and takes as many registers only if it
    is pruned the same. -/
structure Candidate.Precedes (a b : Candidate) : Prop where
  removed_le : List.Forall₂ (· ≤ ·) a.removed b.removed
  eq_of_registers_le : a.cost.registers ≤ b.cost.registers →
    a.removed = b.removed ∧ a.network = b.network

namespace Sweep

variable {s : Sweep} {n : Network Parameter} {data : Dataset} {a b c : Candidate} {i j : Nat}
  {outcomes : List (Option Candidate)} {result : SweepResult}

theorem Measures.precedes (wellFormed : n.WellFormed) (inRange : s.settings.InRange)
    (measures_a : s.Measures n data i (s.settings.ratioAt i) a)
    (measures_b : s.Measures n data j (s.settings.ratioAt j) b) (le : i ≤ j) : a.Precedes b := by
  obtain ⟨removable_a, network_a⟩ := wellFormed.prune_eq_ok_iff.mp measures_a.pruned
  obtain ⟨removable_b, network_b⟩ := wellFormed.prune_eq_ok_iff.mp measures_b.pruned
  have removed_le : List.Forall₂ (· ≤ ·) a.removed b.removed := by
    rw [measures_a.removed, measures_b.removed]
    exact Network.removalCounts_le_removalCounts (inRange.notNegative_ratioAt i)
      (inRange.level_ratioAt_le le) removable_a.positive
  refine ⟨removed_le, ?_⟩
  intro registers
  rw [measures_a.cost, measures_b.cost, network_a, network_b] at registers
  have removed := removable_a.eq_of_registers_le removable_b removed_le registers
  exact ⟨removed, by rw [network_a, network_b, removed]⟩

theorem measures_of_evaluateGrid (inRange : s.settings.InRange)
    (grid : (s.evaluateGrid n data 0 s.settings.ratios).outcome = .ok outcomes) {k : Nat}
    (at_k : outcomes[k]? = some (some c)) : s.Measures n data k (s.settings.ratioAt k) c := by
  obtain ⟨-, each⟩ := evaluateGrid_eq_ok grid
  obtain ⟨ratio, ratio_at_k, point⟩ := each k (some c) at_k
  rw [Nat.zero_add] at point
  rw [← inRange.getElem?_ratios ratio_at_k]
  exact (evaluatePoint_eq_ok_some_iff.mp point).2

/-- Every candidate of a grid precedes all that come after it. -/
theorem pairwise_precedes (wellFormed : n.WellFormed) (inRange : s.settings.InRange)
    (grid : (s.evaluateGrid n data 0 s.settings.ratios).outcome = .ok outcomes) :
    (outcomes.filterMap id).Pairwise Candidate.Precedes := by
  rw [List.pairwise_filterMap, List.pairwise_iff_getElem]
  intro i j i_lt j_lt lt a at_i b at_j
  have measures_a := measures_of_evaluateGrid inRange grid
    (List.getElem?_eq_some_iff.mpr ⟨i_lt, at_i⟩)
  have measures_b := measures_of_evaluateGrid inRange grid
    (List.getElem?_eq_some_iff.mpr ⟨j_lt, at_j⟩)
  exact measures_a.precedes wellFormed inRange measures_b lt.le

theorem sublist_ratios {position : Nat} {ratios : List Float}
    (ok : (s.evaluateGrid n data position ratios).outcome = .ok outcomes) :
    ((outcomes.filterMap id).map Candidate.ratio).Sublist ratios := by
  induction ratios generalizing position outcomes with
  | nil =>
    cases ok
    exact .slnil
  | cons ratio ratios ih =>
    simp only [evaluateGrid, Logged.outcome_bind_eq_ok_iff, Logged.outcome_pure,
      Except.ok.injEq] at ok
    obtain ⟨first, at_first, rest, at_rest, rfl⟩ := ok
    cases first with
    | none => exact (ih at_rest).cons ratio
    | some c =>
      obtain ⟨-, measures⟩ := evaluatePoint_eq_ok_some_iff.mp at_first
      rw [← measures.at_ratio]
      exact (ih at_rest).cons_cons c.ratio

/-- The selection among candidates is the one among their points. -/
theorem isCheapest_best {threshold : Float} {candidates : List Candidate} {p : Point}
    (cheapest : Selection.IsCheapest threshold (candidates.map Candidate.point) i p)
    (selected : candidates[i]? = some c) :
    c.Qualifies threshold ∧
      (∀ d ∈ candidates, d.Qualifies threshold → c.cost.registers ≤ d.cost.registers) ∧
      ∀ d ∈ candidates.take i, d.Qualifies threshold → c.cost.registers < d.cost.registers := by
  have at_index := cheapest.at_index
  rw [List.getElem?_map, selected] at at_index
  obtain rfl := Option.some.inj at_index
  refine ⟨Candidate.qualifies_point_iff.mp cheapest.qualified, ?_, ?_⟩
  · intro d member qualifies
    exact cheapest.least d.point (List.mem_map_of_mem member)
      (Candidate.qualifies_point_iff.mpr qualifies)
  · intro d member qualifies
    have earlier : d.point ∈ (candidates.map Candidate.point).take i := by
      rw [← List.map_take]
      exact List.mem_map_of_mem member
    exact cheapest.earliest d.point earlier (Candidate.qualifies_point_iff.mpr qualifies)

/-- A qualifying candidate after the cheapest one cannot be cheaper, so it is pruned the same. -/
theorem eq_of_qualifies_after {threshold : Float} {candidates : List Candidate}
    (ordered : candidates.Pairwise Candidate.Precedes) (selected : candidates[i]? = some a)
    (cheapest : ∀ d ∈ candidates, d.Qualifies threshold → a.cost.registers ≤ d.cost.registers)
    (le : i ≤ j) (at_j : candidates[j]? = some b) (qualifies : b.Qualifies threshold) :
    a.removed = b.removed ∧ a.network = b.network := by
  obtain ⟨i_lt, rfl⟩ := List.getElem?_eq_some_iff.mp selected
  obtain ⟨j_lt, rfl⟩ := List.getElem?_eq_some_iff.mp at_j
  rcases le.eq_or_lt with rfl | lt
  · exact ⟨rfl, rfl⟩
  · have precedes := List.pairwise_iff_getElem.mp ordered i j i_lt j_lt lt
    exact precedes.eq_of_registers_le (cheapest _ (List.getElem_mem j_lt) qualifies)

/-- A candidate that qualifies does not come after the last one that does. -/
theorem le_of_qualifies {threshold : Float} {candidates : List Candidate}
    (selected : candidates[i]? = some a) (qualifies : a.Qualifies threshold)
    (none_after : ∀ d ∈ candidates.drop (j + 1), ¬ d.Qualifies threshold) : i ≤ j := by
  by_contra after
  have position : j + 1 + (i - (j + 1)) = i := by omega
  have later : (candidates.drop (j + 1))[i - (j + 1)]? = some a := by
    rw [List.getElem?_drop, position, selected]
  exact none_after a (List.mem_of_getElem? later) qualifies

/-- A sweep that succeeds has selected the most heavily pruned network that qualifies, whatever the
    accuracies are and wherever its deadline has cut the grid. -/
theorem run_deploysHeaviest {given : Nat} {literals : List (Layer Parameter)} {settings : Settings}
    {reference : Nat → Evaluator} {clock : Clock}
    (accepted : Network.ofLayers given literals = .ok n)
    (valid : ofSettings settings reference clock = .ok s)
    (ok : (s.run n data).outcome = .ok result) : result.DeploysHeaviest settings := by
  have wellFormed : n.WellFormed := Network.wellFormed_of_ofLayers_eq_ok accepted
  obtain ⟨inRange, rfl, -, -⟩ := ofSettings_eq_ok valid
  obtain ⟨-, -, outcomes, grid, candidates, -, points, selected⟩ := run_eq_ok_iff.mp ok
  obtain ⟨-, threshold, p, isCheapest⟩ := Selection.ofPoints_eq_ok points
  rw [threshold] at isCheapest
  obtain ⟨qualifies, cheapest, earliest⟩ := isCheapest_best isCheapest selected
  have ordered := pairwise_precedes wellFormed inRange grid
  rw [← candidates] at ordered
  refine ⟨?_, selected, qualifies, cheapest, earliest, ?_, ?_⟩
  · rw [candidates]
    exact sublist_ratios grid
  · intro k c at_k qualifies_c none_after
    have not_after := le_of_qualifies selected qualifies none_after
    exact (eq_of_qualifies_after ordered selected cheapest not_after at_k qualifies_c).2
  · intro c member qualifies_c
    obtain ⟨k, at_k⟩ := List.mem_iff_getElem?.mp member
    rcases Nat.lt_or_ge k result.selection.index with before | after
    · obtain ⟨k_lt, rfl⟩ := List.getElem?_eq_some_iff.mp at_k
      obtain ⟨index_lt, at_index⟩ := List.getElem?_eq_some_iff.mp selected
      have precedes := List.pairwise_iff_getElem.mp ordered k _ k_lt index_lt before
      rw [at_index] at precedes
      exact precedes.removed_le
    · rw [(eq_of_qualifies_after ordered selected cheapest after at_k qualifies_c).1]
      exact List.forall₂_refl _

/-- A grid of three ratios. The first two remove nothing from `Network.small`. -/
def threePoints : Settings :=
  ⟨8, 0, 0, 0.5, 0.25, false⟩

theorem ratios_threePoints : threePoints.ratios = (List.range 3).map threePoints.ratioAt := by
  have steps : threePoints.stepCount = 2 := by decide +kernel
  have all := (Settings.check_eq_ok_iff.mp (rfl : threePoints.check = .ok ())).ratios_eq
  rwa [steps] at all

theorem pruneRatio_small (ratio : Float) {count : Nat} (few : count < 3)
    (removed : Network.small.removalCounts ratio = [count]) :
    Network.small.pruneRatio ratio = .ok (Network.small.pruned [count]) := by
  rw [Network.pruneRatio, removed]
  exact Network.wellFormed_small.prune_eq ⟨by decide, .cons few .nil⟩

/-- An evaluator whose third accuracy is not a number. -/
def twoMeasured (position : Nat) : Evaluator := fun _ _ =>
  pure (if position < 2 then 0.75 else 0 / 0)

/-- Of two candidates with the same network the first is selected. -/
theorem run_deploysHeaviest_small :
    Network.ofLayers Network.small.inputs Network.small.layers = .ok Network.small ∧
      ∃ s result, ofSettings threePoints twoMeasured Clock.unlimited = .ok s ∧
        (s.run Network.small ⟨[1, 0.5], [1], 2⟩).outcome = .ok result ∧
        result.candidates.length = 3 ∧ result.selection.index = 0 ∧
        result.DeploysHeaviest threePoints := by
  have accepted : Network.ofLayers Network.small.inputs Network.small.layers = .ok Network.small :=
    rfl
  let s : Sweep := ⟨threePoints, ⟨8, by decide⟩, twoMeasured, Clock.unlimited⟩
  let data : Dataset := ⟨[1, 0.5], [1], 2⟩
  have valid : ofSettings threePoints twoMeasured Clock.unlimited = .ok s := rfl
  have whole : (Evaluator.fixedPoint s.codec (Network.small.pruned [0]) data).outcome.toBool =
      true := by decide +kernel
  have part : (Evaluator.fixedPoint s.codec (Network.small.pruned [1]) data).outcome.toBool =
      true := by decide +kernel
  obtain ⟨c, at_c, point_c⟩ := exists_evaluatePoint (s := s) (fun _ => rfl)
    (pruneRatio_small (threePoints.ratioAt 0) (by decide) (by decide +kernel)) rfl whole
  obtain ⟨d, at_d, point_d⟩ := exists_evaluatePoint (s := s) (fun _ => rfl)
    (pruneRatio_small (threePoints.ratioAt 1) (by decide) (by decide +kernel)) rfl whole
  obtain ⟨e, at_e, point_e⟩ := exists_evaluatePoint (s := s) (fun _ => rfl)
    (pruneRatio_small (threePoints.ratioAt 2) (by decide) (by decide +kernel)) rfl part
  have grid : (s.evaluateGrid Network.small data 0 s.settings.ratios).outcome =
      .ok [some c, some d, some e] := by
    rw [ratios_threePoints]
    simp only [List.range, List.range.loop, List.map, evaluateGrid, Logged.outcome_bind_eq_ok_iff]
    exact ⟨_, at_c, _, ⟨_, at_d, _, ⟨_, at_e, _, rfl, rfl⟩, rfl⟩, rfl⟩
  let result : SweepResult := ⟨[c, d, e], ⟨0, 0.75, 0.75⟩, c, false⟩
  have points : Selection.ofPoints ([c, d, e].map Candidate.point) threePoints.tolerance =
      .ok result.selection := by
    rw [List.map_cons, List.map_cons, List.map_cons, List.map_nil, point_c, point_d, point_e]
    rfl
  have ok : (s.run Network.small data).outcome = .ok result :=
    run_eq_ok_iff.mpr ⟨by decide, rfl, _, grid, rfl, rfl, points, rfl⟩
  exact ⟨accepted, s, result, valid, ok, rfl, rfl, run_deploysHeaviest accepted valid ok⟩

end Sweep

end FixedPointNet
