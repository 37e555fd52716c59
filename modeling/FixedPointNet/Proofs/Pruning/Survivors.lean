import FixedPointNet.Proofs.Layer.Columns
import FixedPointNet.Proofs.Pruning.Ranking
import Mathlib.Data.List.GetD

/-!
# Rankings are unique and survivors are nested

There is one list of the positions of importances in the order of removal, and the ranking is it. A
removal has survivors in every layer whose weights fill its rows, also in one that no network would
accept: as many as are left, in ascending order, and with them all survivors of larger removals.
-/

namespace FixedPointNet

namespace Layer

/-- Each position of a list of importances once, in the order of removal: by the total order of
    their words, and by position where the words are the same. -/
structure IsRanking (words : List UInt32) (ranked : List Nat) : Prop where
  perm : ranked.Perm (List.range words.length)
  sorted : ranked.Pairwise (KeyBefore fun i => Binary32.wordKey (words.getD i 0))

theorem isRanking_rankWords (words : List UInt32) : IsRanking words (rankWords words) where
  perm := positionsByKey_perm Binary32.wordKey words
  sorted := positionsByKey_pairwise Binary32.wordKey words 0

/-- No two neurons are removed before each other, so they can be ranked in one way only. -/
theorem isRanking_iff {words : List UInt32} {ranked : List Nat} :
    IsRanking words ranked ↔ ranked = rankWords words := by
  refine ⟨fun isRanking => ?_, fun same => same ▸ isRanking_rankWords words⟩
  have other := isRanking_rankWords words
  refine (isRanking.perm.trans other.perm.symm).eq_of_pairwise ?_ isRanking.sorted other.sorted
  intro a b _ _ before after
  exact absurd after before.asymm

/-- Floats are ranked as the words that store them. -/
theorem ranking_eq_rankWords (importances : List Float32) :
    ranking importances = rankWords (importances.map Float32.toBits) := by
  have word : ∀ i, (importances.map Float32.toBits).getD i 0 = (importances.getD i 0).toBits :=
    fun _ => importances.getD_map 0 Float32.toBits
  apply isRanking_iff.mp
  refine ⟨by simpa using ranking_perm importances, ?_⟩
  simp only [word]
  exact ranking_pairwise importances

variable {l : Layer Parameter} {remove more : Nat}

theorem exists_importance_iff :
    (∃ importances, l.importance = .ok importances) ↔
      l.inputs * l.outputs ≤ l.weights.length := by
  rw [← exists_mapM_row_iff]
  simp [importance, except_bind_eq_ok_iff, pure, Except.pure, exists_comm]

theorem length_of_importance_eq_ok {importances : List Float32}
    (measured : l.importance = .ok importances) : importances.length = l.outputs := by
  obtain ⟨rows, read, ⟨⟩⟩ := except_bind_eq_ok_iff.mp measured
  have widths : ∀ row ∈ rows, row.length = (List.replicate l.outputs (0 : Float32)).length := by
    rw [List.length_replicate]
    exact forall_mem_of_forall₂ (mapM_eq_ok_iff_forall₂.mp read) fun _ _ => length_of_row_eq_ok
  have by_column : rows.foldl addMagnitudes (List.replicate l.outputs 0) = _ :=
    foldl_zipWith_eq_mapIdx widths
  rw [by_column, List.length_mapIdx, List.length_replicate]

/-- Survivors are what is kept among the neurons of the layer. -/
theorem survivors_eq_ok_iff {kept : List Nat} :
    l.survivors remove = .ok kept ↔ ∃ importances, l.importance = .ok importances ∧
      keptAmong (fun i => importances.getD i 0) l.outputs remove = kept := by
  simp only [survivors, except_bind_eq_ok_iff, pure, Except.pure, Except.ok.injEq]
  refine exists_congr fun importances => and_congr_right fun measured => ?_
  rw [← length_of_importance_eq_ok measured,
    mergeSort_drop_eq_keptAmong (ranking_perm importances) (ranking_pairwise importances)]

/-- What holds of the survivors in a layer, for every removal. -/
structure SurvivorsNested (l : Layer Parameter) : Prop where
  exists_iff : ∀ remove, (∃ kept, l.survivors remove = .ok kept) ↔
    l.inputs * l.outputs ≤ l.weights.length
  increasing : ∀ remove kept, l.survivors remove = .ok kept → kept.Pairwise (· < ·)
  within : ∀ remove kept, l.survivors remove = .ok kept → Within l.outputs kept
  length : ∀ remove kept, l.survivors remove = .ok kept →
    kept.length = l.outputs - min remove l.outputs
  nested : ∀ remove more kept fewer, remove ≤ more → l.survivors remove = .ok kept →
    l.survivors more = .ok fewer → fewer ⊆ kept

theorem survivorsNested (l : Layer Parameter) : l.SurvivorsNested where
  exists_iff remove := by
    rw [← exists_importance_iff]
    simp [survivors_eq_ok_iff]
  increasing remove kept survive := by
    obtain ⟨importances, -, rfl⟩ := survivors_eq_ok_iff.mp survive
    exact keptAmong_pairwise _ _ _
  within remove kept survive := by
    obtain ⟨importances, -, rfl⟩ := survivors_eq_ok_iff.mp survive
    exact within_keptAmong _ _ _
  length remove kept survive := by
    obtain ⟨importances, -, rfl⟩ := survivors_eq_ok_iff.mp survive
    rw [length_keptAmong]
    omega
  nested remove more kept fewer le survive survive' := by
    obtain ⟨importances, measured, rfl⟩ := survivors_eq_ok_iff.mp survive
    obtain ⟨importances', measured', rfl⟩ := survivors_eq_ok_iff.mp survive'
    obtain rfl : importances = importances' := by simpa [measured] using measured'
    exact keptAmong_subset le

/-- A list of importances has one ranking, whatever its words stand for, and the survivors of every
    layer are nested. -/
theorem ranking_unique_survivors_nested :
    (∀ words ranked, IsRanking words ranked ↔ ranked = rankWords words) ∧
      (∀ importances : List Float32,
        ranking importances = rankWords (importances.map Float32.toBits)) ∧
      ∀ l : Layer Parameter, l.SurvivorsNested :=
  ⟨fun _ _ => isRanking_iff, ranking_eq_rankWords, survivorsNested⟩

/-- The words of importances that are equal, of zeros with both signs, and of three that are not a
    number, one of them with a negative sign. -/
def ties : List UInt32 :=
  [0x3F000000, 0, 0x7FC00001, 0x80000000, 0x3F000000, 0x7FC00000, 0xFFC00000]

/-- A layer of three neurons without biases, which no network accepts. -/
def biasless : Layer Parameter :=
  ⟨1, 3, [⟨0x40000000⟩, ⟨0xBF800000⟩, ⟨0x40000000⟩], [], .relu⟩

theorem ranking_unique_survivors_nested_ties :
    IsRanking ties [6, 3, 1, 0, 4, 5, 2] ∧ [6, 3, 1, 0, 4, 5, 2] = rankWords ties ∧
      ∃ kept fewer, biasless.survivors 1 = .ok kept ∧ biasless.survivors 5 = .ok fewer ∧
        kept.length = 2 ∧ fewer.length = 0 ∧ fewer ⊆ kept := by
  obtain ⟨unique, -, nested⟩ := ranking_unique_survivors_nested
  have isRanking : IsRanking ties [6, 3, 1, 0, 4, 5, 2] := ⟨by decide, by decide⟩
  have filled : biasless.inputs * biasless.outputs ≤ biasless.weights.length := by decide
  obtain ⟨kept, survive⟩ := ((nested biasless).exists_iff 1).mpr filled
  obtain ⟨fewer, survive'⟩ := ((nested biasless).exists_iff 5).mpr filled
  exact ⟨isRanking, (unique _ _).mp isRanking, kept, fewer, survive, survive',
    (nested biasless).length 1 kept survive, (nested biasless).length 5 fewer survive',
    (nested biasless).nested 1 5 kept fewer (by decide) survive survive'⟩

end Layer

end FixedPointNet
