import FixedPointNet.Proofs.Selection
import FixedPointNet.Proofs.Settings
import FixedPointNet.Sweep

/-!
# What a sweep measures

A point of the grid that is not overtaken by its deadline gives the candidate with its measurements.
The candidates of a sweep are those of its points, in the order of the grid, and the selection is
made among all of them.
-/

namespace FixedPointNet

/-- The place of a stage among the stages of a point. -/
def Stage.rank : Stage → Nat
  | .pruning => 0
  | .reference => 1
  | .fixedPoint => 2

/-- The place of a check of the deadline: it stands before the stage of its rank. -/
def Checkpoint.rank : Checkpoint → Nat
  | .beforePoint => 0
  | .after stage => stage.rank + 1

namespace Clock

/-- No check of a point up to the start of a stage says that it is late. -/
def Admits (clock : Clock) (position : Nat) (stage : Stage) : Prop :=
  ∀ checkpoint, checkpoint.rank ≤ stage.rank → clock position checkpoint = false

variable {clock : Clock} {position : Nat}

theorem admits_pruning_iff :
    clock.Admits position .pruning ↔ clock position .beforePoint = false := by
  constructor
  · intro admits
    exact admits .beforePoint (Nat.le_refl _)
  · rintro before (_ | _ | _ | _) le
    · exact before
    all_goals exact absurd le (by decide)

theorem admits_reference_iff : clock.Admits position .reference ↔
    clock position .beforePoint = false ∧ clock position (.after .pruning) = false := by
  constructor
  · intro admits
    exact ⟨admits _ (by decide), admits _ (by decide)⟩
  · rintro ⟨before, after_pruning⟩ (_ | _ | _ | _) le
    · exact before
    · exact after_pruning
    all_goals exact absurd le (by decide)

theorem admits_fixedPoint_iff : clock.Admits position .fixedPoint ↔
    clock position .beforePoint = false ∧ clock position (.after .pruning) = false ∧
      clock position (.after .reference) = false := by
  constructor
  · intro admits
    exact ⟨admits _ (by decide), admits _ (by decide), admits _ (by decide)⟩
  · rintro ⟨before, after_pruning, after_reference⟩ (_ | _ | _ | _) le
    · exact before
    · exact after_pruning
    · exact after_reference
    · exact absurd le (by decide)

end Clock

namespace Sweep

open Logged (outcome_bind_eq_ok_iff outcome_bind_eq_error_iff outcome_report_bind outcome_liftM)

/-- A candidate is what a sweep measures at a position of the grid and its ratio. -/
structure Measures (s : Sweep) (n : Network Parameter) (data : Dataset) (position : Nat)
    (ratio : Float) (c : Candidate) : Prop where
  at_ratio : c.ratio = ratio
  removed : c.removed = n.removalCounts ratio
  pruned : n.prune c.removed = .ok c.network
  accuracy : (s.reference position c.network data).outcome = .ok c.accuracy
  fixedPointAccuracy :
    (Evaluator.fixedPoint s.codec c.network data).outcome = .ok c.fixedPointAccuracy
  cost : c.cost = c.network.cost

/-- A stage of a point fails, after the stages before it have succeeded. -/
inductive Fails (s : Sweep) (n : Network Parameter) (data : Dataset) (position : Nat)
    (ratio : Float) : Stage → Failure → Prop where
  | pruning {failure : Failure} : n.pruneRatio ratio = .error failure →
      Fails s n data position ratio .pruning failure
  | reference {pruned : Network Parameter} {failure : Failure} :
      n.pruneRatio ratio = .ok pruned →
      (s.reference position pruned data).outcome = .error failure →
      Fails s n data position ratio .reference failure
  | fixedPoint {pruned : Network Parameter} {accuracy : Float} {failure : Failure} :
      n.pruneRatio ratio = .ok pruned →
      (s.reference position pruned data).outcome = .ok accuracy →
      (Evaluator.fixedPoint s.codec pruned data).outcome = .error failure →
      Fails s n data position ratio .fixedPoint failure

variable {s : Sweep} {n : Network Parameter} {data : Dataset} {position : Nat} {ratio : Float}
  {ratios : List Float} {c : Candidate} {failure : Failure} {result : SweepResult}

theorem outcome_unlessLate_eq_ok_some_iff {late : Bool} {rest : Logged (Option Candidate)} :
    (unlessLate late rest).outcome = .ok (some c) ↔ late = false ∧ rest.outcome = .ok (some c) := by
  cases late <;> simp [unlessLate]

/-- A point gives a candidate exactly when no check of its deadline says that it is late, and the
    candidate is what its stages measure. -/
theorem evaluatePoint_eq_ok_some_iff :
    (s.evaluatePoint n data position ratio).outcome = .ok (some c) ↔
      (∀ checkpoint, s.clock position checkpoint = false) ∧ s.Measures n data position ratio c := by
  simp only [evaluatePoint, outcome_unlessLate_eq_ok_some_iff, outcome_report_bind,
    outcome_bind_eq_ok_iff, outcome_liftM]
  constructor
  · rintro ⟨before, pruned, ok, after_pruning, accuracy, referred, after_reference,
      fixedPointAccuracy, fixed, last⟩
    cases after_fixedPoint : s.clock position (.after .fixedPoint) with
    | true =>
      rw [if_pos after_fixedPoint] at last
      cases last
    | false =>
      rw [if_neg (Bool.eq_false_iff.mp after_fixedPoint)] at last
      obtain rfl := Option.some.inj (Except.ok.inj last)
      refine ⟨?_, rfl, rfl, ok, referred, fixed, rfl⟩
      rintro (_ | _ | _ | _) <;> assumption
  · rintro ⟨on_time, at_ratio, removed, pruned, accuracy, fixed, cost⟩
    refine ⟨on_time _, c.network, removed ▸ pruned, on_time _, c.accuracy, accuracy, on_time _,
      c.fixedPointAccuracy, fixed, ?_⟩
    rw [if_neg (Bool.eq_false_iff.mp (on_time _)), ← removed]
    change Except.ok (some (⟨ratio, c.removed, c.accuracy, c.fixedPointAccuracy, c.network.cost,
      c.network⟩ : Candidate)) = .ok (some c)
    rw [← cost, ← at_ratio]

/-- A point that is on time and whose three stages succeed gives a candidate. -/
theorem exists_evaluatePoint {pruned : Network Parameter} {accuracy : Float}
    (on_time : ∀ checkpoint, s.clock position checkpoint = false)
    (ok : n.prune (n.removalCounts ratio) = .ok pruned)
    (measured : (s.reference position pruned data).outcome = .ok accuracy)
    (fixed : (Evaluator.fixedPoint s.codec pruned data).outcome.toBool = true) :
    ∃ c, (s.evaluatePoint n data position ratio).outcome = .ok (some c) ∧
      c.point = ⟨accuracy, pruned.cost.registers⟩ := by
  cases outcome : (Evaluator.fixedPoint s.codec pruned data).outcome with
  | error failure =>
    rw [outcome] at fixed
    cases fixed
  | ok share =>
    refine ⟨⟨ratio, n.removalCounts ratio, accuracy, share, pruned.cost, pruned⟩, ?_, rfl⟩
    exact evaluatePoint_eq_ok_some_iff.mpr ⟨on_time, rfl, rfl, ok, measured, outcome, rfl⟩

theorem outcome_unlessLate_eq_error_iff {late : Bool} {rest : Logged (Option Candidate)} :
    (unlessLate late rest).outcome = .error failure ↔
      late = false ∧ rest.outcome = .error failure := by
  cases late <;> simp [unlessLate]

/-- A point fails exactly when a stage fails that its deadline admits. -/
theorem evaluatePoint_eq_error_iff :
    (s.evaluatePoint n data position ratio).outcome = .error failure ↔
      ∃ stage, s.clock.Admits position stage ∧ s.Fails n data position ratio stage failure := by
  have no_failure (pruned : Network Parameter) (accuracy fixedPointAccuracy : Float) :
      (if s.clock position (.after .fixedPoint) then
          Logged.report (.finishedLate ratio) >>= fun _ => pure none
        else
          assemble ratio (n.removalCounts ratio) pruned accuracy fixedPointAccuracy >>= fun c =>
            pure (some c) : Logged (Option Candidate)).outcome ≠ .error failure := by
    split_ifs <;> nofun
  simp only [evaluatePoint, outcome_unlessLate_eq_error_iff, outcome_report_bind,
    outcome_bind_eq_error_iff, outcome_liftM, no_failure, and_false, exists_false, or_false]
  constructor
  · rintro ⟨before, refused | ⟨pruned, ok, after_pruning, refused | ⟨accuracy, referred,
      after_reference, refused⟩⟩⟩
    · exact ⟨.pruning, Clock.admits_pruning_iff.mpr before, .pruning refused⟩
    · exact ⟨.reference, Clock.admits_reference_iff.mpr ⟨before, after_pruning⟩,
        .reference ok refused⟩
    · exact ⟨.fixedPoint, Clock.admits_fixedPoint_iff.mpr ⟨before, after_pruning, after_reference⟩,
        .fixedPoint ok referred refused⟩
  · rintro ⟨stage, admits, ⟨refused⟩ | ⟨ok, refused⟩ | ⟨ok, referred, refused⟩⟩
    · exact ⟨Clock.admits_pruning_iff.mp admits, .inl refused⟩
    · obtain ⟨before, after_pruning⟩ := Clock.admits_reference_iff.mp admits
      exact ⟨before, .inr ⟨_, ok, after_pruning, .inl refused⟩⟩
    · obtain ⟨before, after_pruning, after_reference⟩ := Clock.admits_fixedPoint_iff.mp admits
      exact ⟨before, .inr ⟨_, ok, after_pruning, .inr ⟨_, referred, after_reference, refused⟩⟩⟩

/-- A grid is evaluated point by point. -/
theorem evaluateGrid_eq_ok {outcomes : List (Option Candidate)}
    (ok : (s.evaluateGrid n data position ratios).outcome = .ok outcomes) :
    outcomes.length = ratios.length ∧ ∀ k outcome, outcomes[k]? = some outcome →
      ∃ ratio, ratios[k]? = some ratio ∧
        (s.evaluatePoint n data (position + k) ratio).outcome = .ok outcome := by
  induction ratios generalizing position outcomes with
  | nil =>
    cases ok
    exact ⟨rfl, fun k outcome absurd => nomatch absurd⟩
  | cons ratio ratios ih =>
    simp only [evaluateGrid, outcome_bind_eq_ok_iff, Logged.outcome_pure, Except.ok.injEq] at ok
    obtain ⟨first, at_first, rest, at_rest, rfl⟩ := ok
    obtain ⟨lengths, each⟩ := ih at_rest
    refine ⟨congrArg Nat.succ lengths, ?_⟩
    intro k outcome at_k
    cases k with
    | zero =>
      obtain rfl := Option.some.inj at_k
      exact ⟨ratio, rfl, at_first⟩
    | succ k =>
      obtain ⟨ratio', at_k', point⟩ := each k outcome at_k
      refine ⟨ratio', at_k', ?_⟩
      rwa [Nat.add_right_comm] at point

/-- A point of a grid has a property, and the points before it succeed. -/
def Arrives (s : Sweep) (n : Network Parameter) (data : Dataset) (property : Nat → Float → Prop)
    (position : Nat) (ratios : List Float) : Prop :=
  ∃ k ratio, ratios[k]? = some ratio ∧ property (position + k) ratio ∧
    ∀ j < k, ∀ earlier, ratios[j]? = some earlier →
      ∃ outcome, (s.evaluatePoint n data (position + j) earlier).outcome = .ok outcome

theorem not_arrives_nil {property : Nat → Float → Prop} :
    ¬ s.Arrives n data property position [] := by
  simp [Arrives]

/-- A grid arrives at its first point, or at one of the others if the first point succeeds. -/
theorem arrives_cons_iff {property : Nat → Float → Prop} :
    s.Arrives n data property position (ratio :: ratios) ↔
      property position ratio ∨
        ∃ outcome, (s.evaluatePoint n data position ratio).outcome = .ok outcome ∧
          s.Arrives n data property (position + 1) ratios := by
  constructor
  · rintro ⟨k, at_ratio, at_k, holds, succeed⟩
    cases k with
    | zero =>
      obtain rfl := Option.some.inj at_k
      exact .inl holds
    | succ k =>
      obtain ⟨outcome, ok⟩ := succeed 0 k.succ_pos ratio rfl
      refine .inr ⟨outcome, ok, k, at_ratio, at_k, by rwa [Nat.add_right_comm], ?_⟩
      intro j below earlier at_j
      have ok_j := succeed (j + 1) (Nat.succ_lt_succ below) earlier at_j
      rwa [Nat.add_right_comm]
  · rintro (holds | ⟨outcome, ok, k, at_ratio, at_k, holds, succeed⟩)
    · exact ⟨0, ratio, rfl, holds, fun j absurd => nomatch absurd⟩
    · refine ⟨k + 1, at_ratio, at_k, by rwa [Nat.add_right_comm] at holds, ?_⟩
      intro j below earlier at_j
      cases j with
      | zero =>
        obtain rfl := Option.some.inj at_j
        exact ⟨outcome, ok⟩
      | succ j =>
        have ok_j := succeed j (Nat.lt_of_succ_lt_succ below) earlier at_j
        rwa [Nat.add_right_comm] at ok_j

/-- A grid fails exactly when a point of it does, with the failure of the first one. -/
theorem evaluateGrid_eq_error_iff :
    (s.evaluateGrid n data position ratios).outcome = .error failure ↔
      s.Arrives n data
        (fun k ratio => (s.evaluatePoint n data k ratio).outcome = .error failure)
        position ratios := by
  induction ratios generalizing position with
  | nil =>
    simp only [not_arrives_nil, iff_false]
    nofun
  | cons first rest ih =>
    simp only [evaluateGrid, outcome_bind_eq_error_iff, Logged.outcome_pure, reduceCtorEq,
      and_false, exists_false, or_false, ih, arrives_cons_iff]

/-- A sweep succeeds when its points and the selection among their candidates do, and returns the
    candidates, the selection and the selected candidate. -/
theorem run_eq_ok_iff : (s.run n data).outcome = .ok result ↔
    2 ≤ n.layers.length ∧ n.inputs = data.width ∧
      ∃ outcomes, (s.evaluateGrid n data 0 s.settings.ratios).outcome = .ok outcomes ∧
        result.candidates = outcomes.filterMap id ∧
        result.truncated = decide (result.candidates.length < outcomes.length) ∧
        Selection.ofPoints (result.candidates.map Candidate.point) s.settings.tolerance =
          .ok result.selection ∧
        result.candidates[result.selection.index]? = some result.best := by
  unfold run
  by_cases shallow : n.layers.length < 2
  · rw [if_pos shallow]
    constructor
    · intro ok
      cases ok
    · intro ⟨deep, _⟩
      exact absurd shallow (Nat.not_lt.mpr deep)
  have width_iff : Evaluator.checkWidth n data = .ok () ↔ n.inputs = data.width := by
    rw [Evaluator.checkWidth]
    split_ifs with mismatch <;> simp_all
  rw [if_neg shallow]
  simp only [outcome_report_bind, apply_ite Logged.outcome, ite_self, outcome_bind_eq_ok_iff,
    outcome_liftM, liftM_error_eq_ok_iff]
  constructor
  · rintro ⟨_, width, outcomes, grid, selection, selected, ok⟩
    cases at_index : (outcomes.filterMap id)[selection.index]? with
    | none =>
      rw [at_index] at ok
      cases ok
    | some best =>
      rw [at_index] at ok
      cases ok
      exact ⟨Nat.not_lt.mp shallow, width_iff.mp width, outcomes, grid, rfl, rfl, selected,
        at_index⟩
  · rintro ⟨-, width, outcomes, grid, candidates, truncated, selected, at_index⟩
    refine ⟨(), width_iff.mpr width, outcomes, grid, result.selection, ?_⟩
    rw [← candidates, at_index, ← truncated]
    exact ⟨selected, rfl⟩

/-- How a sweep ends, once it has selected a candidate. -/
def conclude (candidates : List Candidate) (selection : Selection) (truncated : Bool) :
    Logged SweepResult :=
  match candidates[selection.index]? with
  | some best => do
      Logged.report (.selected best.ratio best.accuracy selection.threshold best.cost.registers)
      return ⟨candidates, selection, best, truncated⟩
  | none => Logged.fail (.fault .outOfRange)

/-- A selection names one of the candidates. -/
theorem conclude_ne_error {candidates : List Candidate} {selection : Selection} {tolerance : Float}
    (chosen : Selection.ofPoints (candidates.map Candidate.point) tolerance = .ok selection)
    (truncated : Bool) : (conclude candidates selection truncated).outcome ≠ .error failure := by
  obtain ⟨-, -, p, isCheapest⟩ := Selection.ofPoints_eq_ok chosen
  have in_range := isCheapest.lt_length
  rw [List.length_map] at in_range
  rw [conclude, List.getElem?_eq_getElem in_range]
  nofun

/-- A sweep of a network with a hidden layer fails when its samples do not fit the network, when a
    point of its grid fails, or when the selection among its candidates does. -/
theorem run_eq_error_iff (deep : 2 ≤ n.layers.length) :
    (s.run n data).outcome = .error failure ↔
      (n.inputs ≠ data.width ∧ failure = .error (.shapeMismatch [n.inputs] [data.width])) ∨
      (n.inputs = data.width ∧
        ((s.evaluateGrid n data 0 s.settings.ratios).outcome = .error failure ∨
          ∃ outcomes cause, (s.evaluateGrid n data 0 s.settings.ratios).outcome = .ok outcomes ∧
            Selection.ofPoints ((outcomes.filterMap id).map Candidate.point)
              s.settings.tolerance = .error cause ∧ failure = .error cause)) := by
  unfold run
  rw [if_neg (Nat.not_lt.mpr deep)]
  simp only [outcome_report_bind, apply_ite Logged.outcome, ite_self, outcome_bind_eq_error_iff,
    outcome_liftM, liftM_error_eq_error_iff, liftM_error_eq_ok_iff]
  by_cases width : n.inputs = data.width
  · have fits : Evaluator.checkWidth n data = .ok () := if_neg (not_not.mpr width)
    simp only [fits, width, reduceCtorEq, false_and, exists_false, ne_eq, not_true_eq_false,
      false_or, true_and, exists_const]
    refine or_congr_right (exists_congr fun outcomes => ?_)
    constructor
    · rintro ⟨grid, refused | ⟨selection, chosen, failed⟩⟩
      · obtain ⟨cause, none, rfl⟩ := refused
        exact ⟨cause, grid, none, rfl⟩
      · exact absurd failed (conclude_ne_error chosen _)
    · rintro ⟨cause, grid, none, rfl⟩
      exact ⟨grid, .inl ⟨cause, none, rfl⟩⟩
  · have mismatch : Evaluator.checkWidth n data = .error (.shapeMismatch [n.inputs] [data.width]) :=
      if_pos width
    simp [mismatch, width]

theorem ofSettings_eq_ok {settings : Settings} {reference : Nat → Evaluator} {clock : Clock}
    (ok : ofSettings settings reference clock = .ok s) :
    settings.InRange ∧ s.settings = settings ∧ s.reference = reference ∧ s.clock = clock := by
  unfold ofSettings at ok
  cases passed : settings.check with
  | error cause =>
    rw [passed] at ok
    cases ok
  | ok _ =>
    rw [passed] at ok
    cases made : Codec.ofFractionBits settings.fractionBits with
    | error cause =>
      rw [made] at ok
      cases ok
    | ok codec =>
      rw [made] at ok
      cases ok
      exact ⟨Settings.check_eq_ok_iff.mp passed, rfl, rfl, rfl⟩

end Sweep

end FixedPointNet
