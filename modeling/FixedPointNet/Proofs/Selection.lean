import FixedPointNet.Selection
import Mathlib.Tactic.SplitIfs

/-!
# What the selection selects

The scan over the points carries the cheapest qualifying point of those it has seen. At its end it
has the cheapest qualifying point of all, and of equally cheap ones the earliest.
-/

namespace FixedPointNet.Selection

/-- A point at a position of a list qualifies, no qualifying point of the list has fewer registers,
    and every qualifying one before it has more. -/
structure IsCheapest (threshold : Float) (points : List Point) (index : Nat) (p : Point) :
    Prop where
  at_index : points[index]? = some p
  qualified : qualifies threshold p = true
  least : ∀ q ∈ points, qualifies threshold q = true → p.registers ≤ q.registers
  earliest : ∀ q ∈ points.take index, qualifies threshold q = true → p.registers < q.registers

/-- What a scan may have chosen from the points it has seen: nothing, if none of them qualifies, or
    the position and the registers of the cheapest one. -/
def IsChoice (threshold : Float) (seen : List Point) : Option (Nat × Nat) → Prop
  | none => ∀ q ∈ seen, qualifies threshold q = false
  | some (index, registers) => ∃ p, IsCheapest threshold seen index p ∧ p.registers = registers

variable {threshold : Float} {points seen : List Point} {p : Point} {index : Nat}
  {chosen : Option (Nat × Nat)}

theorem qualifies_iff :
    qualifies threshold p = true ↔ p.accuracy.isNaN = false ∧ ¬ p.accuracy + slack < threshold := by
  rw [qualifies, Bool.and_eq_true, Bool.not_eq_true', Bool.not_eq_true', decide_eq_false_iff_not,
    and_comm]

theorem mem_take_of_getElem? {α : Type} {xs : List α} {x : α} {i k : Nat} (at_i : xs[i]? = some x)
    (before : i < k) : x ∈ xs.take k := by
  apply List.mem_of_getElem? (i := i)
  rw [List.getElem?_take_of_lt before, at_i]

theorem IsCheapest.lt_length (cheapest : IsCheapest threshold points index p) :
    index < points.length :=
  (List.getElem?_eq_some_iff.mp cheapest.at_index).1

/-- A point that does not qualify or is not cheaper does not change what is cheapest. -/
theorem IsCheapest.append (cheapest : IsCheapest threshold seen index p) {q : Point}
    (no_better : qualifies threshold q = true → p.registers ≤ q.registers) :
    IsCheapest threshold (seen ++ [q]) index p where
  at_index := by rw [List.getElem?_append_left cheapest.lt_length, cheapest.at_index]
  qualified := cheapest.qualified
  least := by
    intro r member qualified
    rcases List.mem_append.mp member with before | last
    · exact cheapest.least r before qualified
    · obtain rfl := List.mem_singleton.mp last
      exact no_better qualified
  earliest := by
    rw [List.take_append_of_le_length (Nat.le_of_lt cheapest.lt_length)]
    exact cheapest.earliest

/-- A qualifying point that is cheaper than all before it is the cheapest. -/
theorem isCheapest_last (qualified : qualifies threshold p = true)
    (cheaper : ∀ q ∈ seen, qualifies threshold q = true → p.registers < q.registers) :
    IsCheapest threshold (seen ++ [p]) seen.length p where
  at_index := by simp
  qualified := qualified
  least := by
    intro q member qualified
    rcases List.mem_append.mp member with before | last
    · exact Nat.le_of_lt (cheaper q before qualified)
    · obtain rfl := List.mem_singleton.mp last
      exact Nat.le_refl _
  earliest := by
    rw [List.take_left]
    exact cheaper

/-- The next point is taken: it qualifies and is cheaper than the choice so far. -/
def Takes (threshold : Float) (chosen : Option (Nat × Nat)) (p : Point) : Prop :=
  qualifies threshold p = true ∧ ∀ c ∈ chosen, p.registers < c.2

theorem cheapest_cons_of_takes (takes : Takes threshold chosen p) (position : Nat)
    (rest : List Point) :
    cheapest threshold chosen position (p :: rest) =
      cheapest threshold (some (position, p.registers)) (position + 1) rest := by
  obtain ⟨qualified, cheaper⟩ := takes
  cases chosen with
  | none => simp [cheapest, qualified]
  | some c => simp [cheapest, qualified, cheaper c rfl]

theorem cheapest_cons_of_not_takes (passes : ¬ Takes threshold chosen p) (position : Nat)
    (rest : List Point) :
    cheapest threshold chosen position (p :: rest) =
      cheapest threshold chosen (position + 1) rest := by
  unfold Takes at passes
  cases chosen with
  | none => simp_all [cheapest]
  | some c =>
    have no_better : qualifies threshold p = true → ¬ p.registers < c.2 := by simpa using passes
    rw [cheapest, if_neg]
    simpa using no_better

theorem IsChoice.take (choice : IsChoice threshold seen chosen) (takes : Takes threshold chosen p) :
    IsChoice threshold (seen ++ [p]) (some (seen.length, p.registers)) := by
  obtain ⟨qualified, cheaper⟩ := takes
  refine ⟨p, isCheapest_last qualified ?_, rfl⟩
  intro q member qualified
  cases chosen with
  | none =>
    rw [choice q member] at qualified
    cases qualified
  | some c =>
    obtain ⟨best, cheapest, registers⟩ := choice
    have below : p.registers < best.registers := registers ▸ cheaper c rfl
    exact Nat.lt_of_lt_of_le below (cheapest.least q member qualified)

theorem IsChoice.pass (choice : IsChoice threshold seen chosen)
    (passes : ¬ Takes threshold chosen p) : IsChoice threshold (seen ++ [p]) chosen := by
  cases chosen with
  | none =>
    intro q member
    rcases List.mem_append.mp member with before | last
    · exact choice q before
    · obtain rfl := List.mem_singleton.mp last
      rw [Bool.eq_false_iff]
      intro qualified
      exact passes ⟨qualified, fun _ absurd => nomatch absurd⟩
  | some c =>
    obtain ⟨best, cheapest, registers⟩ := choice
    refine ⟨best, cheapest.append ?_, registers⟩
    intro qualified
    by_cases cheaper : p.registers < c.2
    · exact absurd ⟨qualified, fun _ same => Option.some.inj same ▸ cheaper⟩ passes
    · omega

/-- The whole scan: from a choice among the points seen so far it comes to one among all. -/
theorem IsChoice.cheapest (choice : IsChoice threshold seen chosen) (rest : List Point) :
    ∃ last, IsChoice threshold (seen ++ rest) last ∧
      Selection.cheapest threshold chosen seen.length rest = last.map Prod.fst := by
  induction rest generalizing seen chosen with
  | nil => exact ⟨chosen, by rwa [List.append_nil], by cases chosen <;> rfl⟩
  | cons p rest ih =>
    have all : seen ++ p :: rest = (seen ++ [p]) ++ rest := by simp
    have position : seen.length + 1 = (seen ++ [p]).length := by simp
    rw [all]
    by_cases takes : Takes threshold chosen p
    · rw [cheapest_cons_of_takes takes, position]
      exact ih (choice.take takes)
    · rw [cheapest_cons_of_not_takes takes, position]
      exact ih (choice.pass takes)

/-- The scan finds the cheapest qualifying point, unless no point qualifies. -/
theorem cheapest_cases (threshold : Float) (points : List Point) :
    (cheapest threshold none 0 points = none ∧ ∀ q ∈ points, qualifies threshold q = false) ∨
      ∃ index p, cheapest threshold none 0 points = some index ∧
        IsCheapest threshold points index p := by
  have start : IsChoice threshold [] none := fun _ member => absurd member List.not_mem_nil
  obtain ⟨last, choice, scanned⟩ := start.cheapest points
  cases last with
  | none => exact .inl ⟨scanned, choice⟩
  | some chosen =>
    obtain ⟨p, cheapest, -⟩ := choice
    exact .inr ⟨chosen.1, p, scanned, cheapest⟩

/-- The threshold is the greatest accuracy less the tolerance, and the selected point is the
    cheapest one that reaches it. -/
theorem ofPoints_eq_ok {tolerance : Float} {s : Selection}
    (ok : ofPoints points tolerance = .ok s) :
    s.bestAccuracy = greatestAccuracy points ∧ s.threshold = s.bestAccuracy - tolerance ∧
      ∃ p, IsCheapest s.threshold points s.index p := by
  unfold ofPoints at ok
  split_ifs at ok
  rcases cheapest_cases (greatestAccuracy points - tolerance) points with
    ⟨scanned, -⟩ | ⟨index, p, scanned, cheapest⟩
  · simp [scanned] at ok
  · simp only [scanned, Except.ok.injEq] at ok
    subst ok
    exact ⟨rfl, rfl, p, cheapest⟩

/-- A selection is refused when there is no point, or no point that qualifies. -/
theorem ofPoints_eq_error {tolerance : Float} {cause : Error}
    (refused : ofPoints points tolerance = .error cause) :
    points = [] ∧ cause = .emptySweep ∨
      ∃ best threshold, cause = .noQualifyingCandidate best threshold := by
  unfold ofPoints at refused
  split_ifs at refused with empty
  · cases refused
    exact .inl ⟨List.isEmpty_iff.mp empty, rfl⟩
  · dsimp only at refused
    split at refused
    · cases refused
    · cases refused
      exact .inr ⟨_, _, rfl⟩

end FixedPointNet.Selection
