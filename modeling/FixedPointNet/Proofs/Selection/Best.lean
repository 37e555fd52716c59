import FixedPointNet.Proofs.Binary64.Maximum
import FixedPointNet.Proofs.Selection

/-!
# A best accuracy always qualifies

The threshold is not above the best accuracy and the slack is positive, so that a point with the
best accuracy qualifies, also where that is infinite. A selection therefore fails only where no
accuracy is a number. Where it succeeds, it selects the one position that its rule describes, and
points whose accuracy is not a number have no part in it.
-/

namespace FixedPointNet.Selection

open Binary64 (level value?)

/-- Whether the accuracy of a point is a number. -/
def isNumber (p : Point) : Bool :=
  !p.accuracy.isNaN

/-- A float is the maximum of the accuracies that are numbers. -/
structure IsGreatestAccuracy (points : List Point) (best : Float) : Prop where
  attained : ∃ p ∈ points, (p.accuracy == best) = true
  above : ∀ p ∈ points, p.accuracy.isNaN = false → p.accuracy ≤ best

/-- The accuracy of a point is a number and, with the slack, not below a threshold. -/
def Qualifies (threshold : Float) (p : Point) : Prop :=
  p.accuracy.isNaN = false ∧ ¬ p.accuracy + 1e-12 < threshold

/-- A position holds a qualifying point, and no qualifying point has fewer registers. -/
def HoldsCheapest (threshold : Float) (points : List Point) (index : Nat) : Prop :=
  ∃ p, points[index]? = some p ∧ Qualifies threshold p ∧
    ∀ q ∈ points, Qualifies threshold q → p.registers ≤ q.registers

/-- A selection among points: the best accuracy, the threshold below it, and the earliest position
    that holds a cheapest qualifying point. -/
structure Selects (points : List Point) (tolerance : Float) (s : Selection) : Prop where
  greatest : IsGreatestAccuracy points s.bestAccuracy
  threshold : s.threshold = s.bestAccuracy - tolerance
  earliest : IsLeast {index | HoldsCheapest s.threshold points index} s.index

variable {points others : List Point} {p q : Point} {tolerance threshold best : Float}
  {index index' : Nat} {s : Selection}

theorem isNumber_iff : isNumber p = true ↔ level p.accuracy ≠ ⊥ := by
  rw [isNumber, Bool.not_eq_true', Binary64.isNaN_eq_false_iff]

theorem greatestAccuracy_eq (points : List Point) : greatestAccuracy points =
    (points.map Point.accuracy).foldl Binary64.maxNumber Binary64.negInfinity :=
  List.foldl_map.symm

theorem level_le_greatestAccuracy (member : p ∈ points) :
    level p.accuracy ≤ level (greatestAccuracy points) := by
  rw [greatestAccuracy_eq]
  apply Binary64.level_le_foldl_maxNumber
  exact List.mem_cons_of_mem _ (List.mem_map_of_mem member)

theorem level_greatestAccuracy_ne_bot (points : List Point) :
    level (greatestAccuracy points) ≠ ⊥ := by
  have start := Binary64.level_le_foldl_maxNumber Binary64.negInfinity (points.map Point.accuracy) _
    List.mem_cons_self
  rw [← greatestAccuracy_eq, Binary64.level_negInfinity] at start
  intro nan
  rw [nan, le_bot_iff] at start
  cases start

/-- Some point has the greatest accuracy, unless no accuracy is a number. -/
theorem exists_level_eq_greatestAccuracy (member : p ∈ points) (number : isNumber p = true) :
    ∃ q ∈ points, level q.accuracy = level (greatestAccuracy points) := by
  have ends := Binary64.foldl_maxNumber_mem Binary64.negInfinity (points.map Point.accuracy)
  rw [← greatestAccuracy_eq] at ends
  rcases List.mem_cons.mp ends with start | later
  · -- the scan has kept its start, so that the point's accuracy is negative infinity
    have le := level_le_greatestAccuracy member
    have ge := Binary64.neg_limit_le_level (isNumber_iff.mp number)
    rw [start, Binary64.level_negInfinity] at le ⊢
    exact ⟨p, member, le_antisymm le ge⟩
  · obtain ⟨q, q_member, same⟩ := List.mem_map.mp later
    exact ⟨q, q_member, by rw [same]⟩

theorem isGreatestAccuracy_greatestAccuracy (member : p ∈ points) (number : isNumber p = true) :
    IsGreatestAccuracy points (greatestAccuracy points) where
  attained := by
    obtain ⟨q, q_member, same⟩ := exists_level_eq_greatestAccuracy member number
    refine ⟨q, q_member, Binary64.beq_iff.mpr ⟨?_, same⟩⟩
    rw [same]
    exact level_greatestAccuracy_ne_bot points
  above := by
    intro q q_member q_number
    rw [Binary64.isNaN_eq_false_iff] at q_number
    exact Binary64.le_iff.mpr ⟨q_number, level_le_greatestAccuracy q_member⟩

/-- A tolerance that a selection can work with. -/
structure Tolerable (tolerance : Float) : Prop where
  finite : tolerance.isFinite = true
  nonneg : 0 ≤ tolerance

theorem value?_slack : value? slack = some (4951760157141521 / 2 ^ 92) := by decide +kernel

/-- The tolerance lowers a float and the slack raises it, or they leave it as it is. -/
theorem Tolerable.threshold_le (tolerable : Tolerable tolerance) (best : Float) :
    level (best - tolerance) ≤ level (best + slack) := by
  obtain ⟨t, value⟩ := Binary64.isFinite_iff.mp tolerable.finite
  have nonneg := (Binary64.le_iff.mp tolerable.nonneg).2
  rw [Binary64.level_zero, Binary64.level_of_value? value, WithBot.coe_le_coe] at nonneg
  have lowers : ∀ v : ℚ, v - t ≤ v := fun v => sub_le_self v nonneg
  have raises : ∀ v : ℚ, v ≤ v + 4951760157141521 / 2 ^ 92 :=
    fun v => le_add_of_nonneg_right (by positivity)
  calc level (best - tolerance)
      = Binary64.lift (· - t) (level best) := Binary64.level_sub_value value best
    _ ≤ level best := Binary64.lift_level_le lowers best
    _ ≤ Binary64.lift (· + 4951760157141521 / 2 ^ 92) (level best) :=
        Binary64.le_lift_level raises best
    _ = level (best + slack) := (Binary64.level_add_value value?_slack best).symm

/-- A point with the best accuracy qualifies. -/
theorem Tolerable.qualifies (tolerable : Tolerable tolerance) (number : isNumber p = true)
    (same : level p.accuracy = level best) : qualifies (best - tolerance) p = true := by
  rw [isNumber_iff] at number
  rw [qualifies_iff, Binary64.isNaN_eq_false_iff]
  refine ⟨number, ?_⟩
  have raised : level (p.accuracy + slack) = level (best + slack) := by
    rw [Binary64.level_add_value value?_slack, same, ← Binary64.level_add_value value?_slack]
  rw [Binary64.lt_iff, raised]
  exact fun less => (tolerable.threshold_le best).not_gt less.2

theorem isNumber_of_qualifies (qualified : qualifies threshold p = true) : isNumber p = true := by
  rw [isNumber_iff, ← Binary64.isNaN_eq_false_iff]
  exact (qualifies_iff.mp qualified).1

theorem IsCheapest.isLeast (cheapest : IsCheapest threshold points index p) :
    IsLeast {index | HoldsCheapest threshold points index} index := by
  constructor
  · refine ⟨p, cheapest.at_index, qualifies_iff.mp cheapest.qualified, ?_⟩
    intro q member qualified
    exact cheapest.least q member (qualifies_iff.mpr qualified)
  · rintro i ⟨q, at_i, qualified, least⟩
    by_contra! before
    have cheaper := cheapest.earliest q (mem_take_of_getElem? at_i before)
      (qualifies_iff.mpr qualified)
    have as_cheap := least p (List.mem_of_getElem? cheapest.at_index)
      (qualifies_iff.mp cheapest.qualified)
    omega

theorem ofPoints_eq_error_emptySweep_iff :
    ofPoints points tolerance = .error .emptySweep ↔ points = [] := by
  constructor
  · intro refused
    rcases ofPoints_eq_error refused with ⟨empty, -⟩ | ⟨_, _, other⟩
    · exact empty
    · cases other
  · rintro rfl
    rfl

/-- Among points with a number, the scan finds one. -/
theorem Tolerable.exists_ofPoints (tolerable : Tolerable tolerance) (member : p ∈ points)
    (number : isNumber p = true) :
    ∃ s, ofPoints points tolerance = .ok s ∧ Selects points tolerance s := by
  obtain ⟨q, q_member, same⟩ := exists_level_eq_greatestAccuracy member number
  have q_number : isNumber q = true := by
    rw [isNumber_iff, same]
    exact level_greatestAccuracy_ne_bot points
  have qualified := tolerable.qualifies q_number same
  have nonempty : points.isEmpty = false := by
    cases points with
    | nil => cases member
    | cons => rfl
  rcases cheapest_cases (greatestAccuracy points - tolerance) points with
    ⟨-, none⟩ | ⟨index, c, scanned, cheapest⟩
  · rw [none q q_member] at qualified
    cases qualified
  · refine ⟨⟨index, greatestAccuracy points, greatestAccuracy points - tolerance⟩, ?_, ?_⟩
    · simp [ofPoints, nonempty, scanned]
    · exact ⟨isGreatestAccuracy_greatestAccuracy member number, rfl, cheapest.isLeast⟩

/-- A selection finds nothing only where no accuracy is a number. -/
theorem Tolerable.ofPoints_eq_error_iff (tolerable : Tolerable tolerance) :
    (∃ best threshold, ofPoints points tolerance = .error (.noQualifyingCandidate best threshold)) ↔
      points ≠ [] ∧ ∀ p ∈ points, p.accuracy.isNaN = true := by
  constructor
  · rintro ⟨best, threshold, refused⟩
    constructor
    · rintro rfl
      cases refused
    · intro p member
      by_contra number
      obtain ⟨s, ok, -⟩ := tolerable.exists_ofPoints member (by simpa [isNumber] using number)
      rw [ok] at refused
      cases refused
  · rintro ⟨nonempty, none⟩
    cases selected : ofPoints points tolerance with
    | error cause =>
      rcases ofPoints_eq_error selected with ⟨empty, -⟩ | ⟨best, threshold, rfl⟩
      · exact absurd empty nonempty
      · exact ⟨best, threshold, rfl⟩
    | ok s =>
      obtain ⟨-, -, p, cheapest⟩ := ofPoints_eq_ok selected
      have number := (qualifies_iff.mp cheapest.qualified).1
      rw [none p (List.mem_of_getElem? cheapest.at_index)] at number
      cases number

/-- Points that are not numbers do not change the greatest accuracy. -/
theorem greatestAccuracy_filter (points : List Point) :
    greatestAccuracy (points.filter isNumber) = greatestAccuracy points := by
  have skips : ∀ start, level start ≠ ⊥ →
      (points.filter isNumber).foldl (fun best p => Binary64.maxNumber best p.accuracy) start =
        points.foldl (fun best p => Binary64.maxNumber best p.accuracy) start := by
    intro start number
    induction points generalizing start with
    | nil => rfl
    | cons p points ih =>
      have number' : level (Binary64.maxNumber start p.accuracy) ≠ ⊥ := by
        rw [Binary64.level_maxNumber]
        exact fun nan => number (max_eq_bot.mp nan).1
      rw [List.foldl_cons, ← ih _ number']
      by_cases counts : isNumber p = true
      · rw [List.filter_cons_of_pos counts, List.foldl_cons]
      · have nan : level p.accuracy = ⊥ := not_not.mp (isNumber_iff.not.mp counts)
        rw [List.filter_cons_of_neg counts, Binary64.maxNumber_of_isNaN number nan]
  exact skips _ (by rw [Binary64.level_negInfinity]; exact WithBot.coe_ne_bot)

/-- A point that passes a test stands, among those that do, behind as many as before it. -/
theorem getElem?_filter_of_getElem? {α : Type} {test : α → Bool} {xs : List α} {i : Nat} {x : α}
    (at_i : xs[i]? = some x) (passes : test x = true) :
    (xs.filter test)[(xs.take i).countP test]? = some x ∧
      (xs.filter test).take ((xs.take i).countP test) = (xs.take i).filter test := by
  have split : xs = xs.take i ++ x :: xs.drop (i + 1) := by
    obtain ⟨below, rfl⟩ := List.getElem?_eq_some_iff.mp at_i
    rw [List.cons_getElem_drop_succ, List.take_append_drop]
  have filtered : xs.filter test =
      (xs.take i).filter test ++ x :: (xs.drop (i + 1)).filter test := by
    conv_lhs => rw [split]
    rw [List.filter_append, List.filter_cons_of_pos passes]
  rw [filtered, List.countP_eq_length_filter]
  constructor
  · rw [List.getElem?_append_right (Nat.le_refl _), Nat.sub_self]
    rfl
  · rw [List.take_left]

/-- What is the cheapest of all points is the cheapest of those that are numbers. -/
theorem IsCheapest.filter (cheapest : IsCheapest threshold points index p) :
    IsCheapest threshold (points.filter isNumber) ((points.take index).countP isNumber) p := by
  have number := isNumber_of_qualifies cheapest.qualified
  obtain ⟨at_rank, before⟩ := getElem?_filter_of_getElem? cheapest.at_index number
  refine ⟨at_rank, cheapest.qualified, ?_, ?_⟩
  · intro q member qualified
    exact cheapest.least q (List.mem_of_mem_filter member) qualified
  · intro q member qualified
    rw [before] at member
    exact cheapest.earliest q (List.mem_of_mem_filter member) qualified

/-- Two selections select the same point, counting only the points that are numbers. -/
structure SelectsSame (points : List Point) (s : Selection) (others : List Point)
    (s' : Selection) : Prop where
  bestAccuracy : s'.bestAccuracy = s.bestAccuracy
  threshold : s'.threshold = s.threshold
  point : others[s'.index]? = points[s.index]?
  rank : (others.take s'.index).countP isNumber = (points.take s.index).countP isNumber

/-- Lists with the same numbers have the same selection. -/
theorem Tolerable.selectsSame (tolerable : Tolerable tolerance)
    (same : others.filter isNumber = points.filter isNumber)
    (ok : ofPoints points tolerance = .ok s) :
    ∃ s', ofPoints others tolerance = .ok s' ∧ SelectsSame points s others s' := by
  obtain ⟨best, below, p, cheapest⟩ := ofPoints_eq_ok ok
  have number := isNumber_of_qualifies cheapest.qualified
  have kept : p ∈ points.filter isNumber :=
    List.mem_filter.mpr ⟨List.mem_of_getElem? cheapest.at_index, number⟩
  rw [← same] at kept
  obtain ⟨s', ok', -⟩ := tolerable.exists_ofPoints (List.mem_of_mem_filter kept) number
  obtain ⟨best', below', p', cheapest'⟩ := ofPoints_eq_ok ok'
  have bests : s'.bestAccuracy = s.bestAccuracy := by
    rw [best', best, ← greatestAccuracy_filter, same, greatestAccuracy_filter]
  have thresholds : s'.threshold = s.threshold := by rw [below', below, bests]
  have ranked := cheapest.filter
  have ranked' := cheapest'.filter
  rw [same, thresholds] at ranked'
  have ranks := ranked'.isLeast.unique ranked.isLeast
  refine ⟨s', ok', bests, thresholds, ?_, ranks⟩
  rw [cheapest'.at_index, cheapest.at_index, ← ranked'.at_index, ranks, ranked.at_index]

/-- The rule of a selection, for every list of points and every tolerance that is a number and not
    negative. Points whose accuracy is not a number may be inserted or deleted anywhere. -/
theorem ofPoints_selects (tolerable : Tolerable tolerance) (points : List Point) :
    (ofPoints points tolerance = .error .emptySweep ↔ points = []) ∧
      ((∃ best threshold,
          ofPoints points tolerance = .error (.noQualifyingCandidate best threshold)) ↔
        points ≠ [] ∧ ∀ p ∈ points, p.accuracy.isNaN = true) ∧
      ((∃ p ∈ points, p.accuracy.isNaN = false) →
        ∃ s, ofPoints points tolerance = .ok s ∧ Selects points tolerance s) ∧
      ∀ others s, others.filter isNumber = points.filter isNumber →
        ofPoints points tolerance = .ok s →
          ∃ s', ofPoints others tolerance = .ok s' ∧ SelectsSame points s others s' := by
  refine ⟨ofPoints_eq_error_emptySweep_iff, tolerable.ofPoints_eq_error_iff, ?_, ?_⟩
  · rintro ⟨p, member, number⟩
    exact tolerable.exists_ofPoints member (by rw [isNumber, number]; rfl)
  · intro others s same ok
    exact tolerable.selectsSame same ok

/-- An infinite best accuracy leaves no other accuracy above the threshold. -/
theorem ofPoints_selects_infinite :
    Tolerable 0.01 ∧ ∃ s, ofPoints [⟨0 / 0, 1⟩, ⟨0.9, 20⟩, ⟨Binary64.infinity, 35⟩] 0.01 = .ok s ∧
      Selects [⟨0 / 0, 1⟩, ⟨0.9, 20⟩, ⟨Binary64.infinity, 35⟩] 0.01 s := by
  have tolerable : Tolerable 0.01 := ⟨by decide +kernel, by decide +kernel⟩
  obtain ⟨-, -, selected, -⟩ :=
    ofPoints_selects tolerable [⟨0 / 0, 1⟩, ⟨0.9, 20⟩, ⟨Binary64.infinity, 35⟩]
  exact ⟨tolerable, selected ⟨⟨0.9, 20⟩, by simp, by decide +kernel⟩⟩

end FixedPointNet.Selection
