import FixedPointNet.Proofs.Binary32
import FixedPointNet.Proofs.Classification.Greatest

/-!
# Units with the greatest score

The scores of a batch are stored sample after sample, so unit `k` of sample `j` has the score at
position `j * width + k`. A head with several units decides for the first unit whose score is the
greatest number of its sample, or for unit 0 where the first score is not a number. What is said of
this rule speaks of positions in the stored scores alone, and holds of scores of both precisions.
-/

namespace FixedPointNet.Classification

section Rule

variable {ξ ζ : Type} [LE ξ] [LE ζ]

/-- The units of sample `j` whose score is the greatest number among the scores of the sample. -/
def greatestUnits (isNaN : ξ → Bool) (width : Nat) (scores : List ξ) (j : Nat) : Set Nat :=
  {k | k < width ∧ ∃ x, scores[j * width + k]? = some x ∧ isNaN x = false ∧
    ∀ i < width, ∀ y, scores[j * width + i]? = some y → isNaN y = false → y ≤ x}

/-- The rule decides for the first unit with the greatest score of its sample. -/
structure DecidesForGreatest (isNaN : ξ → Bool) (width : Nat) (rule : List ξ → List Nat) :
    Prop where
  /-- There is one class for each complete row. -/
  count : ∀ scores, (rule scores).length = scores.length / width
  below : ∀ scores, ∀ c ∈ rule scores, c < width
  /-- The classes of a head with up to `2 ^ 32` units are 32-bit words. -/
  word : width ≤ 2 ^ 32 → ∀ scores, ∀ c ∈ rule scores, (UInt32.ofNat c).toNat = c
  notNumber : ∀ scores j x, j < scores.length / width → scores[j * width]? = some x →
    isNaN x = true → (rule scores)[j]? = some 0
  number : ∀ scores j x, j < scores.length / width → scores[j * width]? = some x →
    isNaN x = false → ∃ c, (rule scores)[j]? = some c ∧
      IsLeast (greatestUnits isNaN width scores j) c
  /-- The class of a sample does not depend on the scores of other samples. -/
  alone : ∀ scores others j, j < scores.length / width →
    (∀ k < width, others[j * width + k]? = scores[j * width + k]?) →
    (rule others)[j]? = (rule scores)[j]?

variable {isNaN : ξ → Bool} {isNaN' : ζ → Bool} {f : ξ → ζ} {width : Nat}

theorem greatestUnits_map (numbers : ∀ x, isNaN' (f x) = isNaN x)
    (order : ∀ x y, f x ≤ f y ↔ x ≤ y) (scores : List ξ) (j : Nat) :
    greatestUnits isNaN' width (scores.map f) j = greatestUnits isNaN width scores j := by
  ext k
  simp [greatestUnits, numbers, order]

/-- Scores that are replaced by others of the same order are decided for by the same rule. -/
theorem DecidesForGreatest.comap {rule : List ζ → List Nat}
    (decides : DecidesForGreatest isNaN' width rule) (numbers : ∀ x, isNaN' (f x) = isNaN x)
    (order : ∀ x y, f x ≤ f y ↔ x ≤ y) :
    DecidesForGreatest isNaN width fun scores => rule (scores.map f) where
  count scores := by rw [decides.count, List.length_map]
  below scores := decides.below _
  word narrow scores := decides.word narrow _
  notNumber scores j x inside at_first nan := by
    apply decides.notNumber _ j (f x)
    · rwa [List.length_map]
    · rw [List.getElem?_map, at_first, Option.map_some]
    · rwa [numbers]
  number scores j x inside at_first number := by
    rw [← greatestUnits_map numbers order]
    apply decides.number _ j (f x)
    · rwa [List.length_map]
    · rw [List.getElem?_map, at_first, Option.map_some]
    · rwa [numbers]
  alone scores others j inside agree := by
    apply decides.alone _ _ j
    · rwa [List.length_map]
    · intro k k_lt
      rw [List.getElem?_map, List.getElem?_map, agree k k_lt]

end Rule

open Binary64 (level)

variable {width j : Nat} {scores others : List Float} {x : Float}

/-- The scores of sample `j`. -/
def rowAt (width : Nat) (scores : List Float) (j : Nat) : List Float :=
  (scores.drop (j * width)).take width

theorem getElem?_rowAt {k : Nat} (scores : List Float) (j : Nat) (k_lt : k < width) :
    (rowAt width scores j)[k]? = scores[j * width + k]? := by
  rw [rowAt, List.getElem?_take_of_lt k_lt, List.getElem?_drop]

theorem length_rowAt (inside : j < scores.length / width) :
    (rowAt width scores j).length = width :=
  length_of_mem_pieces (Nat.div_mul_le_self _ _)
    (List.mem_of_getElem? (getElem?_pieces scores inside))

theorem exists_rowAt_eq_cons (positive : 0 < width) (at_first : scores[j * width]? = some x) :
    ∃ rest, rowAt width scores j = x :: rest := by
  have first : (rowAt width scores j)[0]? = some x := by
    rw [getElem?_rowAt scores j positive, Nat.add_zero, at_first]
  rw [← List.head?_eq_getElem?] at first
  exact List.head?_eq_some_iff.mp first

theorem length_classes (several : 1 < width) (scores : List Float) :
    (classes width scores).length = scores.length / width := by
  rw [classes, if_neg (by omega), List.length_map, length_pieces]

theorem getElem?_classes (several : 1 < width) (inside : j < scores.length / width) :
    (classes width scores)[j]? = some (argmax (rowAt width scores j)) := by
  rw [classes, if_neg (by omega), List.getElem?_map, getElem?_pieces scores inside, rowAt,
    Option.map_some]

/-- Where some score is a number, the units with the greatest score are the positions of the
    greatest level. -/
theorem greatestUnits_eq (inside : j < scores.length / width)
    (some_number : ∃ x ∈ rowAt width scores j, level x ≠ ⊥) :
    greatestUnits Float.isNaN width scores j =
      {k | ∃ v, ((rowAt width scores j).map level)[k]? = some v ∧
        ∀ w ∈ (rowAt width scores j).map level, w ≤ v} := by
  have length := length_rowAt inside
  ext k
  simp only [greatestUnits, Set.mem_ofPred_eq, List.forall_mem_map, List.getElem?_map,
    Option.map_eq_some_iff]
  constructor
  · rintro ⟨k_lt, x, at_k, number, greatest⟩
    refine ⟨level x, ⟨x, by rw [getElem?_rowAt scores j k_lt, at_k], rfl⟩, fun y member => ?_⟩
    obtain ⟨i, i_lt, rfl⟩ := List.getElem_of_mem member
    by_cases nan : level (rowAt width scores j)[i] = ⊥
    · rw [nan]
      exact bot_le
    · have at_i : scores[j * width + i]? = some (rowAt width scores j)[i] := by
        rw [← getElem?_rowAt scores j (length ▸ i_lt), List.getElem?_eq_getElem i_lt]
      have le := greatest i (length ▸ i_lt) _ at_i (Binary64.isNaN_eq_false_iff.mpr nan)
      exact (Binary64.le_iff.mp le).2
  · rintro ⟨_, ⟨x, at_k, rfl⟩, greatest⟩
    have k_lt : k < width := length ▸ (List.getElem?_eq_some_iff.mp at_k).1
    obtain ⟨y, member, number⟩ := some_number
    have x_number : level x ≠ ⊥ := ne_bot_of_le_ne_bot number (greatest y member)
    refine ⟨k_lt, x, by rw [← getElem?_rowAt scores j k_lt, at_k],
      Binary64.isNaN_eq_false_iff.mpr x_number, fun i i_lt z at_i z_number => ?_⟩
    rw [← getElem?_rowAt scores j i_lt] at at_i
    exact Binary64.le_iff.mpr ⟨Binary64.isNaN_eq_false_iff.mp z_number,
      greatest z (List.mem_of_getElem? at_i)⟩

/-- A row that begins with a number decides for the first unit with the greatest score. -/
theorem isLeast_greatestUnits (positive : 0 < width) (inside : j < scores.length / width)
    (at_first : scores[j * width]? = some x) (number : x.isNaN = false) :
    IsLeast (greatestUnits Float.isNaN width scores j) (argmax (rowAt width scores j)) := by
  obtain ⟨rest, row⟩ := exists_rowAt_eq_cons positive at_first
  have x_number : level x ≠ ⊥ := Binary64.isNaN_eq_false_iff.mp number
  have first : FirstGreatest ((x :: rest).map level) (argmax (x :: rest)) :=
    firstGreatest_argmax x_number
  rw [greatestUnits_eq inside ⟨x, row ▸ List.mem_cons_self, x_number⟩, row]
  exact first

/-- Scores that agree with the scores of a complete row have that row. -/
theorem rowAt_eq_of_agree (inside : j < scores.length / width)
    (agree : ∀ k < width, others[j * width + k]? = scores[j * width + k]?) :
    rowAt width others j = rowAt width scores j := by
  apply List.ext_getElem?
  intro k
  by_cases k_lt : k < width
  · rw [getElem?_rowAt others j k_lt, getElem?_rowAt scores j k_lt, agree k k_lt]
  · have past : (rowAt width scores j).length ≤ k := by
      rw [length_rowAt inside]
      exact Nat.le_of_not_lt k_lt
    have past' : (rowAt width others j).length ≤ k := by
      rw [rowAt, List.length_take]
      omega
    rw [List.getElem?_eq_none past, List.getElem?_eq_none past']

theorem inside_of_agree (positive : 0 < width) (inside : j < scores.length / width)
    (agree : ∀ k < width, others[j * width + k]? = scores[j * width + k]?) :
    j < others.length / width := by
  have whole := (Nat.le_div_iff_mul_le positive).mp inside
  rw [Nat.succ_mul] at whole
  have last : j * width + (width - 1) < scores.length := by omega
  have at_last := agree (width - 1) (by omega)
  rw [List.getElem?_eq_getElem last] at at_last
  have reached := (List.getElem?_eq_some_iff.mp at_last).1
  apply (Nat.le_div_iff_mul_le positive).mpr
  rw [Nat.succ_mul]
  omega

theorem lt_of_mem_classes (several : 1 < width) {c : Nat} (member : c ∈ classes width scores) :
    c < width := by
  obtain ⟨j, j_lt, at_j⟩ := List.getElem_of_mem member
  have inside : j < scores.length / width := length_classes several scores ▸ j_lt
  have decided := getElem?_classes several inside
  rw [List.getElem?_eq_getElem j_lt, at_j, Option.some.injEq] at decided
  have length := length_rowAt inside
  have some_score : rowAt width scores j ≠ [] := List.ne_nil_of_length_pos (by omega)
  calc c = argmax (rowAt width scores j) := decided
    _ < (rowAt width scores j).length := argmax_lt some_score
    _ = width := length

theorem decidesForGreatest_classes (several : 1 < width) :
    DecidesForGreatest Float.isNaN width (classes width) where
  count := length_classes several
  below _ _ := lt_of_mem_classes several
  word narrow _ _ member :=
    UInt32.toNat_ofNat_of_lt' ((lt_of_mem_classes several member).trans_le narrow)
  notNumber scores j x inside at_first nan := by
    obtain ⟨rest, row⟩ := exists_rowAt_eq_cons (Nat.zero_lt_of_lt several) at_first
    rw [getElem?_classes several inside, row, argmax_of_isNaN nan]
  number scores j x inside at_first number :=
    ⟨_, getElem?_classes several inside,
      isLeast_greatestUnits (Nat.zero_lt_of_lt several) inside at_first number⟩
  alone scores others j inside agree := by
    have inside' := inside_of_agree (Nat.zero_lt_of_lt several) inside agree
    rw [getElem?_classes several inside, getElem?_classes several inside',
      rowAt_eq_of_agree inside agree]

/-- A head with several units decides for the first unit whose score is the greatest number of its
    sample, and for unit 0 where the first score is not a number, in double and in single
    precision. -/
theorem classes_decideForGreatest (several : 1 < width) :
    DecidesForGreatest Float.isNaN width (classes width) ∧
      DecidesForGreatest Float32.isNaN width fun scores =>
        classes width (scores.map Binary32.widen) := by
  have double := decidesForGreatest_classes several
  exact ⟨double, double.comap Binary32.isNaN_widen fun _ _ => Binary32.widen_le_widen_iff⟩

/-- Scores of three samples, two of them with a score that is not a number, and the first score of
    a fourth sample. -/
def ragged : List Float :=
  [.ofBits 0x7ff8000000000000, 1, 2, 1, .ofBits 0x7ff8000000000000, 2, 0.5, 0.5, 0.25, 3]

theorem classes_decideForGreatest_ragged :
    1 < 3 ∧ classes 3 ragged = [0, 2, 0] ∧
      IsLeast (greatestUnits Float.isNaN 3 ragged 1) 2 ∧
      IsLeast (greatestUnits Float.isNaN 3 ragged 2) 0 := by
  have several : 1 < 3 := by decide
  have decided : classes 3 ragged = [0, 2, 0] := by decide +kernel
  obtain ⟨double, -⟩ := classes_decideForGreatest several
  obtain ⟨c, at_c, c_least⟩ := double.number ragged 1 1 (by decide) rfl (by decide)
  obtain ⟨d, at_d, d_least⟩ := double.number ragged 2 0.5 (by decide) rfl (by decide)
  obtain rfl : 2 = c := by simpa [decided] using at_c
  obtain rfl : 0 = d := by simpa [decided] using at_d
  exact ⟨several, decided, c_least, d_least⟩

end FixedPointNet.Classification
