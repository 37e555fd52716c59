import FixedPointNet.Proofs.Binary64
import FixedPointNet.Proofs.Classification
import Mathlib.Order.Bounds.Basic

/-!
# The first greatest score

The scan for the largest score moves on when a score compares greater than the best one so far. What
it has found is the first greatest of the scores that it has seen, and a score that is not a number
is below all others. A row that begins with no number keeps its first unit, since nothing compares
greater.

Which entry is the first greatest depends on the order of the row alone.
-/

namespace FixedPointNet.Classification

/-- Position `k` holds a greatest entry of the row, and no earlier position does. -/
def FirstGreatest {β : Type} [LE β] (row : List β) (k : Nat) : Prop :=
  IsLeast {i | ∃ x, row[i]? = some x ∧ ∀ y ∈ row, y ≤ x} k

section LinearOrder

variable {α β : Type} [LinearOrder α] [LinearOrder β] {row : List β} {x b : β} {k : Nat}

theorem firstGreatest_singleton (x : β) : FirstGreatest [x] 0 :=
  ⟨⟨x, rfl, by simp⟩, fun _ _ => Nat.zero_le _⟩

/-- An entry that is greater than all before it is the first greatest. -/
theorem firstGreatest_append_of_lt (greater : ∀ y ∈ row, y < x) :
    FirstGreatest (row ++ [x]) row.length := by
  constructor
  · refine ⟨x, by simp, ?_⟩
    rw [List.forall_mem_append, List.forall_mem_singleton]
    exact ⟨fun y member => (greater y member).le, le_rfl⟩
  · rintro i ⟨y, at_i, greatest⟩
    by_contra! before
    rw [List.getElem?_append_left before] at at_i
    have lt := greater y (List.mem_of_getElem? at_i)
    exact lt.not_ge (greatest x (by simp))

/-- An entry that is not greater than the greatest does not displace the first of these. -/
theorem FirstGreatest.append_of_le (first : FirstGreatest row k) (at_k : row[k]? = some b)
    (le : x ≤ b) : FirstGreatest (row ++ [x]) k := by
  obtain ⟨⟨b', at_k', greatest⟩, least⟩ := first
  obtain rfl : b = b' := Option.some.inj (at_k.symm.trans at_k')
  have inside : k < row.length := (List.getElem?_eq_some_iff.mp at_k).1
  constructor
  · refine ⟨b, by rw [List.getElem?_append_left inside, at_k], ?_⟩
    rw [List.forall_mem_append, List.forall_mem_singleton]
    exact ⟨greatest, le⟩
  · rintro i ⟨y, at_i, above⟩
    rw [List.forall_mem_append] at above
    by_cases before : i < row.length
    · rw [List.getElem?_append_left before] at at_i
      exact least ⟨y, at_i, above.1⟩
    · omega

/-- The first greatest entry is determined by the order of the entries. -/
theorem firstGreatest_map_iff {f : β → α}
    (order : ∀ x ∈ row, ∀ y ∈ row, f x ≤ f y ↔ x ≤ y) :
    FirstGreatest (row.map f) k ↔ FirstGreatest row k := by
  have same : {i : Nat | ∃ z, (row.map f)[i]? = some z ∧ ∀ y ∈ row.map f, y ≤ z} =
      {i : Nat | ∃ x, row[i]? = some x ∧ ∀ y ∈ row, y ≤ x} := by
    ext i
    simp only [List.getElem?_map, Option.map_eq_some_iff, List.forall_mem_map, Set.mem_ofPred_eq]
    constructor
    · rintro ⟨_, ⟨x, at_i, rfl⟩, greatest⟩
      have member := List.mem_of_getElem? at_i
      exact ⟨x, at_i, fun y y_member => (order y y_member x member).mp (greatest y y_member)⟩
    · rintro ⟨x, at_i, greatest⟩
      have member := List.mem_of_getElem? at_i
      exact ⟨f x, ⟨x, at_i, rfl⟩,
        fun y y_member => (order y y_member x member).mpr (greatest y y_member)⟩
  rw [FirstGreatest, FirstGreatest, same]

/-- Of equal entries the first is the first greatest. -/
theorem FirstGreatest.eq_zero (first : FirstGreatest row k) (equal : ∀ y ∈ row, y = x) :
    k = 0 := by
  obtain ⟨⟨z, at_k, -⟩, least⟩ := first
  cases row with
  | nil => cases at_k
  | cons y row =>
    refine Nat.le_zero.mp (least ⟨y, rfl, fun w member => ?_⟩)
    rw [equal w member, equal y List.mem_cons_self]

end LinearOrder

open Binary64 (level)

variable {seen rest row : List Float} {best score : Float} {bestAt : Nat}

/-- What the scan knows of the scores it has seen: its best one is a number and the first greatest
    of them. -/
structure Leads (seen : List Float) (best : Float) (bestAt : Nat) : Prop where
  number : level best ≠ ⊥
  at_best : seen[bestAt]? = some best
  first : FirstGreatest (seen.map level) bestAt

namespace Leads

theorem level_le (leads : Leads seen best bestAt) : ∀ x ∈ seen, level x ≤ level best := by
  obtain ⟨⟨b, at_b, greatest⟩, -⟩ := leads.first
  rw [List.getElem?_map, leads.at_best, Option.map_some, Option.some.injEq] at at_b
  rw [at_b]
  exact List.forall_mem_map.mp greatest

theorem take (leads : Leads seen best bestAt) (greater : best < score) :
    Leads (seen ++ [score]) score seen.length := by
  have lt := (Binary64.lt_iff.mp greater).2
  refine ⟨ne_bot_of_gt lt, by simp, ?_⟩
  have above : ∀ y ∈ seen.map level, y < level score := by
    rw [List.forall_mem_map]
    exact fun x member => (leads.level_le x member).trans_lt lt
  simpa using firstGreatest_append_of_lt above

theorem pass (leads : Leads seen best bestAt) (passed : ¬ best < score) :
    Leads (seen ++ [score]) best bestAt := by
  have le : level score ≤ level best := by
    by_contra! lt
    exact passed (Binary64.lt_iff.mpr ⟨leads.number, lt⟩)
  have inside := (List.getElem?_eq_some_iff.mp leads.at_best).1
  refine ⟨leads.number, by rw [List.getElem?_append_left inside, leads.at_best], ?_⟩
  have at_best : (seen.map level)[bestAt]? = some (level best) := by
    rw [List.getElem?_map, leads.at_best, Option.map_some]
  simpa using leads.first.append_of_le at_best le

/-- The scan of the rest keeps the first greatest of all that it has seen. -/
theorem leader (leads : Leads seen best bestAt) :
    FirstGreatest ((seen ++ rest).map level) (leader best bestAt seen.length rest) := by
  induction rest generalizing seen best bestAt with
  | nil =>
    rw [List.append_nil]
    exact leads.first
  | cons score rest ih =>
    rw [Classification.leader, List.append_cons]
    split_ifs with greater
    · simpa using ih (leads.take greater)
    · simpa using ih (leads.pass greater)

end Leads

/-- A row that begins with a number has its first greatest score decide. -/
theorem firstGreatest_argmax (number : level score ≠ ⊥) :
    FirstGreatest ((score :: rest).map level) (argmax (score :: rest)) := by
  have leads : Leads [score] score 0 := ⟨number, rfl, firstGreatest_singleton _⟩
  exact leads.leader

/-- The scan stays among the positions that it has seen. -/
theorem leader_lt {bestAt position : Nat} (seen : bestAt < position) :
    leader best bestAt position rest < position + rest.length := by
  induction rest generalizing best bestAt position with
  | nil => simpa [leader] using seen
  | cons score rest ih =>
    rw [leader, List.length_cons, ← Nat.add_assoc, Nat.add_right_comm]
    split_ifs with greater
    · exact ih (by omega)
    · exact ih (by omega)

theorem argmax_lt (some_score : row ≠ []) : argmax row < row.length := by
  cases row with
  | nil => exact absurd rfl some_score
  | cons score rest =>
    rw [argmax, List.length_cons, Nat.add_comm]
    exact leader_lt Nat.zero_lt_one

/-- Nothing compares greater than what is not a number. -/
theorem leader_of_isNaN (nan : best.isNaN = true) (bestAt position : Nat) :
    leader best bestAt position rest = bestAt := by
  induction rest generalizing position with
  | nil => rfl
  | cons score rest ih =>
    have passed : ¬ best < score := fun greater =>
      (Binary64.lt_iff.mp greater).1 (Binary64.isNaN_iff.mp nan)
    rw [leader, if_neg passed, ih]

theorem argmax_of_isNaN (nan : score.isNaN = true) : argmax (score :: rest) = 0 :=
  leader_of_isNaN nan 0 1

end FixedPointNet.Classification
