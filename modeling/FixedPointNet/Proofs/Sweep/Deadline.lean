import FixedPointNet.Proofs.Evaluator
import FixedPointNet.Proofs.Sweep.Deployed
import Mathlib.Data.List.Forall2

/-!
# Where a deadline cuts a sweep

A stage of a point runs when every check of the point so far says that it is not late and no stage
that had to run before it has failed. A point all of whose checks say so gives the candidate that is
measured without a deadline, and any other point gives none. If a deadline that has passed stays
passed, the points that are on time are the first ones of the grid, and nothing runs after the check
that finds it passed.
-/

namespace FixedPointNet

/-- Evaluators that do not report stages of a sweep. -/
def Evaluator.ReportsNoStage (evaluator : Evaluator) : Prop :=
  ∀ n data position stage, .stageStarted position stage ∉ (evaluator n data).events

theorem Evaluator.reportsNoStage_fixedPoint (codec : Codec) :
    (fixedPoint codec).ReportsNoStage := by
  intro n data position stage member
  cases (arithmetic_fixedPoint codec n data).report _ member

namespace Clock

/-- Every check of a point says that it is not late. -/
def onTime (clock : Clock) (position : Nat) : Bool :=
  [Checkpoint.beforePoint, .after .pruning, .after .reference, .after .fixedPoint].all
    fun checkpoint => !clock position checkpoint

/-- Once the deadline has passed, it has passed at all later checks of the point and at all checks
    of later points. -/
def Steady (clock : Clock) : Prop :=
  ∀ {position position' checkpoint checkpoint'}, clock position checkpoint = true →
    (position < position' ∨ position = position' ∧ checkpoint.rank ≤ checkpoint'.rank) →
    clock position' checkpoint' = true

variable {clock : Clock} {position : Nat}

theorem onTime_iff : clock.onTime position = true ↔
    ∀ checkpoint, clock position checkpoint = false := by
  simp only [onTime, List.all_cons, List.all_nil, Bool.and_true, Bool.and_eq_true,
    Bool.not_eq_true']
  constructor
  · rintro ⟨before, after_pruning, after_reference, after_fixedPoint⟩ (_ | _ | _ | _)
    · exact before
    · exact after_pruning
    · exact after_reference
    · exact after_fixedPoint
  · intro on_time
    exact ⟨on_time _, on_time _, on_time _, on_time _⟩

/-- The ratios of a grid whose points are on time, the first point being at the given position. -/
def onTimeAmong (clock : Clock) (position : Nat) (ratios : List Float) : List Float :=
  ((ratios.zipIdx position).filter fun point => clock.onTime point.2).map Prod.fst

theorem onTimeAmong_cons (ratio : Float) (ratios : List Float) :
    clock.onTimeAmong position (ratio :: ratios) =
      if clock.onTime position = true then ratio :: clock.onTimeAmong (position + 1) ratios
      else clock.onTimeAmong (position + 1) ratios := by
  rw [onTimeAmong, List.zipIdx_cons, List.filter_cons]
  split_ifs <;> rfl

theorem length_onTimeAmong (ratios : List Float) :
    (clock.onTimeAmong position ratios).length =
      (List.range' position ratios.length).countP clock.onTime := by
  induction ratios generalizing position with
  | nil => rfl
  | cons ratio ratios ih =>
    rw [onTimeAmong_cons, List.length_cons, List.range'_succ, List.countP_cons, ← ih]
    split_ifs <;> rfl

/-- A deadline that has passed stays passed: no later point is on time. -/
theorem Steady.onTime_eq_false (steady : clock.Steady) {late later : Nat}
    (passed : clock.onTime late = false) (le : late ≤ later) : clock.onTime later = false := by
  rw [Bool.eq_false_iff, ne_eq, onTime_iff, not_forall] at passed ⊢
  obtain ⟨checkpoint, passed⟩ := passed
  rw [Bool.not_eq_false] at passed
  refine ⟨checkpoint, ?_⟩
  rw [Bool.not_eq_false]
  exact steady passed (le.lt_or_eq.imp_right fun same => ⟨same, Nat.le_refl _⟩)

/-- The points that are on time are the first ones of the grid. -/
theorem Steady.onTimeAmong_prefix (steady : clock.Steady) (ratios : List Float) :
    clock.onTimeAmong position ratios <+: ratios := by
  induction ratios generalizing position with
  | nil => exact List.prefix_refl []
  | cons ratio ratios ih =>
    rw [onTimeAmong_cons]
    split_ifs with on_time
    · exact (List.prefix_cons_inj ratio).mpr ih
    · have none : clock.onTimeAmong (position + 1) ratios = [] := by
        rw [onTimeAmong, List.map_eq_nil_iff, List.filter_eq_nil_iff]
        intro point member
        have later := (List.le_snd_of_mem_zipIdx member)
        rw [steady.onTime_eq_false (Bool.eq_false_iff.mpr on_time) (by omega)]
        exact Bool.false_ne_true
      rw [none]
      exact List.nil_prefix

theorem Admits.earlier {stage earlier : Stage} (admits : clock.Admits position stage)
    (le : earlier.rank ≤ stage.rank) : clock.Admits position earlier :=
  fun checkpoint before => admits checkpoint (before.trans le)

end Clock

namespace Sweep

open Logged (outcome_bind_eq_ok_iff mem_events_bind_iff)

/-- A stage of a point comes before a stage of the same point or of a later one. -/
def Before (position : Nat) (stage : Stage) (position' : Nat) (stage' : Stage) : Prop :=
  position < position' ∨ position = position' ∧ stage.rank < stage'.rank

/-- The ratios of the points that are on time. -/
def onTimeRatios (s : Sweep) : List Float :=
  s.clock.onTimeAmong 0 s.settings.ratios

/-- The number of points that are on time. -/
def onTimeCount (s : Sweep) : Nat :=
  (List.range s.settings.ratios.length).countP s.clock.onTime

/-- A stage of a point of the grid has to run unless something fails before it. -/
structure Due (s : Sweep) (position : Nat) (stage : Stage) : Prop where
  in_grid : position < s.settings.ratios.length
  admits : s.clock.Admits position stage

/-- A stage of a point of the grid fails, after the stages of the point before it have succeeded. -/
def FailsAt (s : Sweep) (n : Network Parameter) (data : Dataset) (position : Nat) (stage : Stage)
    (failure : Failure) : Prop :=
  ∃ ratio, s.settings.ratios[position]? = some ratio ∧ s.Fails n data position ratio stage failure

/-- A sweep starts a stage of a point. -/
def Executes (s : Sweep) (n : Network Parameter) (data : Dataset) (position : Nat) (stage : Stage) :
    Prop :=
  .stageStarted position stage ∈ (s.run n data).events

/-- No stage fails that a sweep starts. -/
def NothingFails (s : Sweep) (n : Network Parameter) (data : Dataset) : Prop :=
  ∀ position stage failure, s.Executes n data position stage →
    ¬ s.FailsAt n data position stage failure

/-- The stages of a point before a stage do not fail. -/
def Reaches (s : Sweep) (n : Network Parameter) (data : Dataset) (position : Nat) (ratio : Float)
    (stage : Stage) : Prop :=
  ∀ earlier failure, earlier.rank < stage.rank → ¬ s.Fails n data position ratio earlier failure

variable {s : Sweep} {n : Network Parameter} {data : Dataset} {position position' : Nat}
  {ratio : Float} {ratios : List Float} {stage : Stage} {failure : Failure} {result : SweepResult}
  {c : Candidate}

theorem reaches_pruning : s.Reaches n data position ratio .pruning := by
  rintro (_ | _ | _) failure before <;> exact absurd before (by decide)

theorem reaches_reference_iff : s.Reaches n data position ratio .reference ↔
    ∃ pruned, n.pruneRatio ratio = .ok pruned := by
  constructor
  · intro reaches
    cases outcome : n.pruneRatio ratio with
    | error failure => exact absurd (.pruning outcome) (reaches .pruning failure (by decide))
    | ok pruned => exact ⟨pruned, rfl⟩
  · rintro ⟨pruned, ok⟩ earlier failure before fails
    cases fails with
    | pruning refused =>
      rw [ok] at refused
      cases refused
    | reference => exact absurd before (by decide)
    | fixedPoint => exact absurd before (by decide)

theorem reaches_fixedPoint_iff : s.Reaches n data position ratio .fixedPoint ↔
    ∃ pruned accuracy, n.pruneRatio ratio = .ok pruned ∧
      (s.reference position pruned data).outcome = .ok accuracy := by
  constructor
  · intro reaches
    obtain ⟨pruned, ok⟩ := reaches_reference_iff.mp
      fun earlier failure before => reaches earlier failure (before.trans (by decide))
    cases outcome : (s.reference position pruned data).outcome with
    | error failure => exact absurd (.reference ok outcome) (reaches .reference failure (by decide))
    | ok accuracy => exact ⟨pruned, accuracy, ok, outcome⟩
  · rintro ⟨pruned, accuracy, ok, referred⟩ earlier failure before fails
    cases fails with
    | pruning refused =>
      rw [ok] at refused
      cases refused
    | reference ok' refused =>
      cases ok.symm.trans ok'
      rw [referred] at refused
      cases refused
    | fixedPoint => exact absurd before (by decide)

theorem mem_events_unlessLate_iff {late : Bool} {rest : Logged (Option Candidate)} {event : Event} :
    event ∈ (unlessLate late rest).events ↔ late = false ∧ event ∈ rest.events := by
  cases late <;> simp [unlessLate]

/-- A point starts the stages that its deadline admits, up to the first one that fails. -/
theorem stageStarted_mem_evaluatePoint_iff (silent : (s.reference position).ReportsNoStage) :
    .stageStarted position' stage ∈ (s.evaluatePoint n data position ratio).events ↔
      position' = position ∧ s.clock.Admits position stage ∧
        s.Reaches n data position ratio stage := by
  have finished (pruned : Network Parameter) (accuracy fixedPointAccuracy : Float) :
      .stageStarted position' stage ∉ (if s.clock position (.after .fixedPoint) then
          Logged.report (.finishedLate ratio) >>= fun _ => pure none
        else
          assemble ratio (n.removalCounts ratio) pruned accuracy fixedPointAccuracy >>= fun c =>
            pure (some c) : Logged (Option Candidate)).events := by
    split_ifs <;> simp [assemble, Logged.report, bind, Logged.andThen]
  simp only [evaluatePoint, mem_events_unlessLate_iff, Logged.mem_events_report_iff,
    mem_events_bind_iff, Logged.outcome_report, Logged.events_liftM, Logged.outcome_liftM,
    List.not_mem_nil, false_or, silent _ _ _ _, Evaluator.reportsNoStage_fixedPoint _ _ _ _ _,
    finished, and_false, exists_false, or_false, Event.stageStarted.injEq, true_and, exists_const]
  cases stage with
  | pruning =>
    simp only [Clock.admits_pruning_iff, reaches_pruning, reduceCtorEq, and_false, exists_false,
      or_false, and_true]
    exact and_comm
  | reference =>
    simp only [Clock.admits_reference_iff, reaches_reference_iff, reduceCtorEq, and_false,
      exists_false, or_false, false_or, and_true]
    constructor
    · rintro ⟨before, pruned, ok, after_pruning, rfl⟩
      exact ⟨rfl, ⟨before, after_pruning⟩, pruned, ok⟩
    · rintro ⟨rfl, ⟨before, after_pruning⟩, pruned, ok⟩
      exact ⟨before, pruned, ok, after_pruning, rfl⟩
  | fixedPoint =>
    simp only [Clock.admits_fixedPoint_iff, reaches_fixedPoint_iff, reduceCtorEq, and_false,
      false_or, and_true]
    constructor
    · rintro ⟨before, pruned, ok, after_pruning, accuracy, referred, after_reference, rfl⟩
      exact ⟨rfl, ⟨before, after_pruning, after_reference⟩, pruned, accuracy, ok, referred⟩
    · rintro ⟨rfl, ⟨before, after_pruning, after_reference⟩, pruned, accuracy, ok, referred⟩
      exact ⟨before, pruned, ok, after_pruning, accuracy, referred, after_reference, rfl⟩

/-- A grid starts the stages of a point if it arrives there. -/
theorem stageStarted_mem_evaluateGrid_iff (silent : ∀ k, (s.reference k).ReportsNoStage) :
    .stageStarted position' stage ∈ (s.evaluateGrid n data position ratios).events ↔
      s.Arrives n data (fun k ratio => position' = k ∧ s.clock.Admits k stage ∧
        s.Reaches n data k ratio stage) position ratios := by
  induction ratios generalizing position with
  | nil => simp [evaluateGrid, not_arrives_nil]
  | cons first rest ih =>
    simp only [evaluateGrid, mem_events_bind_iff, Logged.events_pure, List.not_mem_nil, and_false,
      exists_false, or_false, ih, stageStarted_mem_evaluatePoint_iff (silent position),
      arrives_cons_iff]

theorem stageStarted_not_mem_conclude {candidates : List Candidate} {selection : Selection}
    {truncated : Bool} :
    .stageStarted position stage ∉ (conclude candidates selection truncated).events := by
  rw [conclude]
  cases candidates[selection.index]? with
  | none => exact List.not_mem_nil
  | some best =>
    simp only [mem_events_bind_iff, Logged.mem_events_report_iff, reduceCtorEq, Logged.events_pure,
      List.not_mem_nil, and_false, exists_false, or_false, not_false_eq_true]

/-- A sweep executes what its grid starts. -/
theorem executes_iff_mem (deep : 2 ≤ n.layers.length) (fits : n.inputs = data.width) :
    s.Executes n data position stage ↔
      .stageStarted position stage ∈ (s.evaluateGrid n data 0 s.settings.ratios).events := by
  have width : Evaluator.checkWidth n data = .ok () := if_neg (not_not.mpr fits)
  unfold Executes run
  rw [if_neg (Nat.not_lt.mpr deep), width]
  simp only [mem_events_bind_iff, Logged.mem_events_report_iff, Logged.outcome_report,
    Logged.events_liftM, Logged.outcome_liftM, List.not_mem_nil, false_or, reduceCtorEq]
  constructor
  · rintro ⟨_, -, _, -, member | ⟨outcomes, -, member⟩⟩
    · exact member
    · -- what follows the grid reports a truncation and a selection at most
      exfalso
      split_ifs at member
      all_goals
        simp only [mem_events_bind_iff, Logged.mem_events_report_iff, Logged.outcome_report,
          Logged.events_liftM, Logged.outcome_liftM, List.not_mem_nil, false_or, reduceCtorEq]
          at member
      · obtain ⟨_, -, selection, -, member⟩ := member
        exact stageStarted_not_mem_conclude member
      · obtain ⟨selection, -, member⟩ := member
        exact stageStarted_not_mem_conclude member
  · intro member
    exact ⟨(), rfl, (), trivial, .inl member⟩

theorem Fails.reaches (fails : s.Fails n data position ratio stage failure) :
    s.Reaches n data position ratio stage := by
  cases fails with
  | pruning => exact reaches_pruning
  | reference ok => exact reaches_reference_iff.mpr ⟨_, ok⟩
  | fixedPoint ok referred => exact reaches_fixedPoint_iff.mpr ⟨_, _, ok, referred⟩

/-- A point succeeds when no stage fails that its deadline admits. -/
theorem exists_evaluatePoint_eq_ok_iff :
    (∃ outcome, (s.evaluatePoint n data position ratio).outcome = .ok outcome) ↔
      ∀ stage failure, s.clock.Admits position stage →
        ¬ s.Fails n data position ratio stage failure := by
  constructor
  · rintro ⟨outcome, ok⟩ stage failure admits fails
    have failed := evaluatePoint_eq_error_iff.mpr ⟨stage, admits, fails⟩
    rw [ok] at failed
    cases failed
  · intro none
    cases outcome : (s.evaluatePoint n data position ratio).outcome with
    | ok value => exact ⟨value, rfl⟩
    | error failure =>
      obtain ⟨stage, admits, fails⟩ := evaluatePoint_eq_error_iff.mp outcome
      exact absurd fails (none stage failure admits)

theorem arrives_zero_iff {property : Nat → Float → Prop} :
    s.Arrives n data property 0 s.settings.ratios ↔
      ∃ position ratio, s.settings.ratios[position]? = some ratio ∧ property position ratio ∧
        ∀ earlier < position, ∀ stage failure, s.Due earlier stage →
          ¬ s.FailsAt n data earlier stage failure := by
  simp only [Arrives, Nat.zero_add, exists_evaluatePoint_eq_ok_iff]
  refine exists_congr fun position => exists_congr fun ratio => and_congr_right fun _ =>
    and_congr_right fun _ => forall_congr' fun earlier => imp_congr_right fun _ => ?_
  constructor
  · rintro none stage failure due ⟨ratio, at_earlier, fails⟩
    exact none ratio at_earlier stage failure due.admits fails
  · intro none ratio at_earlier stage failure admits fails
    have in_grid := (List.getElem?_eq_some_iff.mp at_earlier).1
    exact none stage failure ⟨in_grid, admits⟩ ⟨ratio, at_earlier, fails⟩

theorem length_onTimeRatios (s : Sweep) : s.onTimeRatios.length = s.onTimeCount := by
  rw [onTimeRatios, onTimeCount, Clock.length_onTimeAmong, List.range_eq_range']

/-- Without a deadline a ratio gives the candidate that is measured for it. -/
theorem evaluateRatio_eq_ok_iff :
    (s.evaluateRatio n data ratio).outcome = .ok c ↔ s.Measures n data 0 ratio c := by
  simp only [evaluateRatio, outcome_bind_eq_ok_iff, Logged.outcome_liftM]
  constructor
  · rintro ⟨pruned, ok, accuracy, referred, fixedPointAccuracy, fixed, last⟩
    cases last
    exact ⟨rfl, rfl, ok, referred, fixed, rfl⟩
  · rintro ⟨rfl, removed, pruned, accuracy, fixed, cost⟩
    refine ⟨c.network, removed ▸ pruned, c.accuracy, accuracy, c.fixedPointAccuracy, fixed, ?_⟩
    rw [← removed]
    change Except.ok (⟨c.ratio, c.removed, c.accuracy, c.fixedPointAccuracy, c.network.cost,
      c.network⟩ : Candidate) = .ok c
    rw [← cost]

/-- A point that is on time and succeeds gives a candidate. -/
theorem exists_candidate_of_onTime {outcome : Option Candidate}
    (on_time : s.clock.onTime position = true)
    (ok : (s.evaluatePoint n data position ratio).outcome = .ok outcome) :
    ∃ c, outcome = some c := by
  simp only [evaluatePoint, unlessLate, Clock.onTime_iff.mp on_time, Bool.false_eq_true, if_false,
    Logged.outcome_report_bind, outcome_bind_eq_ok_iff, Logged.outcome_liftM] at ok
  obtain ⟨-, -, -, -, -, -, c, -, last⟩ := ok
  cases last
  exact ⟨c, rfl⟩

/-- The candidates of a grid are those of its points that are on time, as they are measured without
    a deadline. -/
theorem evaluateRatio_of_evaluateGrid {outcomes : List (Option Candidate)}
    (constant : ∀ k, s.reference k = s.reference 0)
    (ok : (s.evaluateGrid n data position ratios).outcome = .ok outcomes) :
    List.Forall₂ (fun ratio c => (s.evaluateRatio n data ratio).outcome = .ok c)
      (s.clock.onTimeAmong position ratios) (outcomes.filterMap id) := by
  induction ratios generalizing position outcomes with
  | nil =>
    cases ok
    exact .nil
  | cons ratio ratios ih =>
    simp only [evaluateGrid, outcome_bind_eq_ok_iff, Logged.outcome_pure, Except.ok.injEq] at ok
    obtain ⟨first, at_first, rest, at_rest, rfl⟩ := ok
    rw [Clock.onTimeAmong_cons]
    split_ifs with on_time
    · obtain ⟨c, rfl⟩ := exists_candidate_of_onTime on_time at_first
      obtain ⟨-, measures⟩ := evaluatePoint_eq_ok_some_iff.mp at_first
      refine .cons (evaluateRatio_eq_ok_iff.mpr ?_) (ih at_rest)
      exact { measures with accuracy := by rw [← constant position]; exact measures.accuracy }
    · cases first with
      | none =>
        rw [List.filterMap_cons_none rfl]
        exact ih at_rest
      | some c =>
        exact absurd (Clock.onTime_iff.mpr (evaluatePoint_eq_ok_some_iff.mp at_first).1) on_time

section Run

variable (deep : 2 ≤ n.layers.length) (fits : n.inputs = data.width)
  (silent : ∀ k, (s.reference k).ReportsNoStage)

include deep fits silent

/-- A stage is executed when it is due and no stage before it fails that is due. -/
theorem executes_iff : s.Executes n data position stage ↔
    s.Due position stage ∧ ∀ earlier stage' failure, Before earlier stage' position stage →
      s.Due earlier stage' → ¬ s.FailsAt n data earlier stage' failure := by
  rw [executes_iff_mem deep fits, stageStarted_mem_evaluateGrid_iff silent, arrives_zero_iff]
  constructor
  · rintro ⟨_, ratio, at_position, ⟨rfl, admits, reaches⟩, none⟩
    refine ⟨⟨(List.getElem?_eq_some_iff.mp at_position).1, admits⟩, ?_⟩
    rintro earlier stage' failure (before | ⟨rfl, before⟩) due ⟨ratio', at_earlier, fails⟩
    · exact none earlier before stage' failure due ⟨ratio', at_earlier, fails⟩
    · obtain rfl := Option.some.inj (at_position.symm.trans at_earlier)
      exact reaches stage' failure before fails
  · rintro ⟨⟨in_grid, admits⟩, none⟩
    refine ⟨position, s.settings.ratios[position], List.getElem?_eq_getElem in_grid,
      ⟨rfl, admits, ?_⟩, ?_⟩
    · intro stage' failure before fails
      exact none position stage' failure (.inr ⟨rfl, before⟩)
        ⟨in_grid, admits.earlier before.le⟩ ⟨_, List.getElem?_eq_getElem in_grid, fails⟩
    · intro earlier before stage' failure due
      exact none earlier stage' failure (.inl before) due

/-- The grid fails with the failure of an executed stage. -/
theorem evaluateGrid_eq_error_iff_executes :
    (s.evaluateGrid n data 0 s.settings.ratios).outcome = .error failure ↔
      ∃ position stage, s.Executes n data position stage ∧
        s.FailsAt n data position stage failure := by
  simp only [executes_iff_mem deep fits, stageStarted_mem_evaluateGrid_iff silent,
    evaluateGrid_eq_error_iff, arrives_zero_iff, evaluatePoint_eq_error_iff]
  constructor
  · rintro ⟨position, ratio, at_position, ⟨stage, admits, fails⟩, none⟩
    exact ⟨position, stage, ⟨position, ratio, at_position, ⟨rfl, admits, fails.reaches⟩, none⟩,
      ratio, at_position, fails⟩
  · rintro ⟨position, stage, ⟨_, ratio, at_position, ⟨rfl, admits, -⟩, none⟩, ratio', at_ratio',
      fails⟩
    obtain rfl := Option.some.inj (at_position.symm.trans at_ratio')
    exact ⟨position, ratio, at_position, ⟨stage, admits, fails⟩, none⟩

/-- The grid succeeds if nothing fails. -/
theorem exists_evaluateGrid_eq_ok_iff :
    (∃ outcomes, (s.evaluateGrid n data 0 s.settings.ratios).outcome = .ok outcomes) ↔
      s.NothingFails n data := by
  constructor
  · rintro ⟨outcomes, ok⟩ position stage failure executed fails
    have failed := (evaluateGrid_eq_error_iff_executes deep fits silent).mpr
      ⟨position, stage, executed, fails⟩
    rw [ok] at failed
    cases failed
  · intro nothing_fails
    cases grid : (s.evaluateGrid n data 0 s.settings.ratios).outcome with
    | ok outcomes => exact ⟨outcomes, rfl⟩
    | error failure =>
      obtain ⟨position, stage, executed, fails⟩ :=
        (evaluateGrid_eq_error_iff_executes deep fits silent).mp grid
      exact absurd fails (nothing_fails position stage failure executed)

end Run

/-- A stage that is due comes before every check that finds the deadline passed. -/
theorem Due.before_check (due : s.Due position stage) (steady : s.clock.Steady)
    {checkpoint : Checkpoint} (passed : s.clock position' checkpoint = true) :
    position < position' ∨ position = position' ∧ stage.rank < checkpoint.rank := by
  by_contra after
  rcases lt_trichotomy position' position with earlier | rfl | later
  · have on_time := due.admits .beforePoint (Nat.zero_le _)
    rw [steady passed (.inl earlier)] at on_time
    cases on_time
  · have on_time := due.admits checkpoint (by omega)
    rw [passed] at on_time
    cases on_time
  · exact after (.inl later)

/-- How a sweep follows its deadline. If it succeeds, its candidates are those that the points on
    time have without a deadline, and the selection is made among them. It fails with the first
    failure of a stage that is due, or else with what the selection among those candidates
    refuses. -/
structure KeepsDeadline (s : Sweep) (n : Network Parameter) (data : Dataset) : Prop where
  candidates : ∀ {result}, (s.run n data).outcome = .ok result →
    List.Forall₂ (fun ratio c => (s.evaluateRatio n data ratio).outcome = .ok c)
      s.onTimeRatios result.candidates
  truncated : ∀ {result}, (s.run n data).outcome = .ok result →
    (result.truncated = true ↔ s.onTimeCount < s.settings.ratios.length)
  selection : ∀ {result}, (s.run n data).outcome = .ok result →
    Selection.ofPoints (result.candidates.map Candidate.point) s.settings.tolerance =
      .ok result.selection ∧ result.candidates[result.selection.index]? = some result.best
  executes : ∀ {position stage}, s.Executes n data position stage ↔
    s.Due position stage ∧ ∀ earlier stage' failure, Before earlier stage' position stage →
      s.Due earlier stage' → ¬ s.FailsAt n data earlier stage' failure
  failed : ∀ {position stage failure}, s.Executes n data position stage →
    s.FailsAt n data position stage failure → (s.run n data).outcome = .error failure
  failure : ∀ {failure}, (s.run n data).outcome = .error failure →
    (∃ position stage, s.Executes n data position stage ∧
      s.FailsAt n data position stage failure) ∨
    s.NothingFails n data ∧ ∃ candidates cause,
      List.Forall₂ (fun ratio c => (s.evaluateRatio n data ratio).outcome = .ok c)
        s.onTimeRatios candidates ∧
      Selection.ofPoints (candidates.map Candidate.point) s.settings.tolerance = .error cause ∧
      failure = .error cause
  empty : s.onTimeCount = 0 → s.NothingFails n data →
    (s.run n data).outcome = .error (.error .emptySweep)

/-- Nothing runs after a check that finds the deadline passed. -/
def StopsAtDeadline (s : Sweep) (n : Network Parameter) (data : Dataset) : Prop :=
  ∀ {position checkpoint}, s.clock position checkpoint = true →
    ∀ {position' stage}, s.Executes n data position' stage →
      position' < position ∨ position' = position ∧ stage.rank < checkpoint.rank

/-- A sweep whose reference evaluator is the same at every point follows its deadline, whatever its
    clock says. If a deadline that has passed stays passed, the points that are on time are the
    first ones of the grid, and the sweep stops there. -/
theorem run_keepsDeadline {settings : Settings} {evaluator : Evaluator} {clock : Clock}
    (valid : ofSettings settings (fun _ => evaluator) clock = .ok s) (deep : 2 ≤ n.layers.length)
    (fits : n.inputs = data.width) (silent : evaluator.ReportsNoStage) :
    s.KeepsDeadline n data ∧ (clock.Steady →
      s.onTimeRatios = settings.ratios.take s.onTimeCount ∧ s.StopsAtDeadline n data) := by
  obtain ⟨-, rfl, constant, rfl⟩ := ofSettings_eq_ok valid
  have silent' (k : Nat) : (s.reference k).ReportsNoStage := by
    rw [constant]
    exact silent
  have measured {outcomes : List (Option Candidate)}
      (grid : (s.evaluateGrid n data 0 s.settings.ratios).outcome = .ok outcomes) :
      List.Forall₂ (fun ratio c => (s.evaluateRatio n data ratio).outcome = .ok c) s.onTimeRatios
        (outcomes.filterMap id) :=
    evaluateRatio_of_evaluateGrid (fun k => by rw [constant]) grid
  have executes {position : Nat} {stage : Stage} : s.Executes n data position stage ↔ _ :=
    executes_iff deep fits silent'
  refine ⟨⟨?_, ?_, ?_, executes, ?_, ?_, ?_⟩, ?_⟩
  · intro result ok
    obtain ⟨-, -, outcomes, grid, candidates, -⟩ := run_eq_ok_iff.mp ok
    rw [candidates]
    exact measured grid
  · intro result ok
    obtain ⟨-, -, outcomes, grid, candidates, truncated, -⟩ := run_eq_ok_iff.mp ok
    rw [truncated, decide_eq_true_iff, (evaluateGrid_eq_ok grid).1, candidates,
      ← (measured grid).length_eq, length_onTimeRatios]
  · intro result ok
    obtain ⟨-, -, outcomes, -, -, -, selected⟩ := run_eq_ok_iff.mp ok
    exact selected
  · intro position stage failure executed fails
    have failed := (evaluateGrid_eq_error_iff_executes deep fits silent').mpr
      ⟨position, stage, executed, fails⟩
    exact (run_eq_error_iff deep).mpr (.inr ⟨fits, .inl failed⟩)
  · intro failure failed
    rcases (run_eq_error_iff deep).mp failed with
      ⟨mismatch, -⟩ | ⟨-, failed | ⟨outcomes, cause, grid, none, rfl⟩⟩
    · exact absurd fits mismatch
    · exact .inl ((evaluateGrid_eq_error_iff_executes deep fits silent').mp failed)
    · have nothing_fails := (exists_evaluateGrid_eq_ok_iff deep fits silent').mp ⟨outcomes, grid⟩
      exact .inr ⟨nothing_fails, _, cause, measured grid, none, rfl⟩
  · intro none_on_time nothing_fails
    obtain ⟨outcomes, grid⟩ := (exists_evaluateGrid_eq_ok_iff deep fits silent').mpr nothing_fails
    have none : outcomes.filterMap id = [] := by
      rw [← List.length_eq_zero_iff, ← (measured grid).length_eq, length_onTimeRatios, none_on_time]
    have empty : Selection.ofPoints ((outcomes.filterMap id).map Candidate.point)
        s.settings.tolerance = .error .emptySweep := by
      rw [none]
      rfl
    exact (run_eq_error_iff deep).mpr (.inr ⟨fits, .inr ⟨outcomes, _, grid, empty, rfl⟩⟩)
  · intro steady
    constructor
    · rw [← length_onTimeRatios, ← List.prefix_iff_eq_take]
      exact steady.onTimeAmong_prefix _
    · intro position checkpoint passed position' stage executed
      exact (executes.mp executed).1.before_check steady passed

/-- A deadline that passes while the reference evaluator measures the second point. -/
def duringSecond : Clock := fun position checkpoint =>
  1 < position || position == 1 && 2 ≤ checkpoint.rank

/-- An evaluator that measures the same for every network. -/
def threeQuarters : Evaluator := fun _ _ => pure 0.75

/-- The second of three points is overtaken by the deadline, and the third is not started. -/
theorem run_keepsDeadline_small :
    ∃ s, ofSettings threePoints (fun _ => threeQuarters) duringSecond = .ok s ∧
      2 ≤ Network.small.layers.length ∧ Network.small.inputs = 2 ∧ threeQuarters.ReportsNoStage ∧
      duringSecond.Steady ∧ s.onTimeCount = 1 ∧
      s.KeepsDeadline Network.small ⟨[1, 0.5], [1], 2⟩ ∧
      s.onTimeRatios = threePoints.ratios.take s.onTimeCount ∧
      s.StopsAtDeadline Network.small ⟨[1, 0.5], [1], 2⟩ ∧
      ∃ result, (s.run Network.small ⟨[1, 0.5], [1], 2⟩).outcome = .ok result ∧
        result.candidates.length = 1 ∧ result.truncated = true := by
  let s : Sweep := ⟨threePoints, ⟨8, by decide⟩, fun _ => threeQuarters, duringSecond⟩
  let data : Dataset := ⟨[1, 0.5], [1], 2⟩
  have valid : ofSettings threePoints (fun _ => threeQuarters) duringSecond = .ok s := rfl
  have silent : threeQuarters.ReportsNoStage := nofun
  have steady : duringSecond.Steady := by
    intro position position' checkpoint checkpoint' passed later
    simp only [duringSecond, Bool.or_eq_true, decide_eq_true_eq, Bool.and_eq_true,
      beq_iff_eq] at passed ⊢
    omega
  have count : s.onTimeCount = 1 := by decide +kernel
  have deep : 2 ≤ Network.small.layers.length := by decide
  have fits : Network.small.inputs = data.width := rfl
  obtain ⟨keeps, steadily⟩ := run_keepsDeadline valid deep fits silent
  obtain ⟨first, stops⟩ := steadily steady
  refine ⟨s, valid, deep, fits, silent, steady, count, keeps, first, stops, ?_⟩
  have whole : (Evaluator.fixedPoint s.codec (Network.small.pruned [0]) data).outcome.toBool =
      true := by decide +kernel
  obtain ⟨c, at_c, point_c⟩ := exists_evaluatePoint (s := s)
    (Clock.onTime_iff.mp (rfl : s.clock.onTime 0 = true))
    (pruneRatio_small (threePoints.ratioAt 0) (by decide) (by decide +kernel)) rfl whole
  have second : (s.evaluatePoint Network.small data 1 (threePoints.ratioAt 1)).outcome =
      .ok none := by
    have ok := pruneRatio_small (threePoints.ratioAt 1) (by decide : 0 < 3) (by decide +kernel)
    obtain ⟨outcome, succeeds⟩ : ∃ outcome,
        (s.evaluatePoint Network.small data 1 (threePoints.ratioAt 1)).outcome = .ok outcome := by
      refine exists_evaluatePoint_eq_ok_iff.mpr fun stage failure admits fails => ?_
      cases fails with
      | pruning refused => cases ok.symm.trans refused
      | reference _ refused => cases refused
      | fixedPoint => cases admits (.after .reference) (by decide)
    cases outcome with
    | none => exact succeeds
    | some d => cases (evaluatePoint_eq_ok_some_iff.mp succeeds).1 (.after .reference)
  have grid : (s.evaluateGrid Network.small data 0 s.settings.ratios).outcome =
      .ok [some c, none, none] := by
    rw [ratios_threePoints]
    simp only [List.range, List.range.loop, List.map, evaluateGrid, outcome_bind_eq_ok_iff]
    exact ⟨_, at_c, _, ⟨_, second, _, ⟨none, rfl, _, rfl, rfl⟩, rfl⟩, rfl⟩
  let result : SweepResult := ⟨[c], ⟨0, 0.75, 0.75⟩, c, true⟩
  have points : Selection.ofPoints ([c].map Candidate.point) threePoints.tolerance =
      .ok result.selection := by
    rw [List.map_cons, List.map_nil, point_c]
    rfl
  exact ⟨result, run_eq_ok_iff.mpr ⟨deep, fits, _, grid, rfl, rfl, points, rfl⟩, rfl, rfl⟩

end Sweep

end FixedPointNet
