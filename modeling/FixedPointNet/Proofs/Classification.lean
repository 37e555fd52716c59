import FixedPointNet.Classification
import FixedPointNet.Proofs.Layer.Rows

/-!
# One class per sample

The scores of a batch are cut into rows of the head's width, and every complete row has one class,
which depends on that row alone. Where each class follows from a sample, the hits can be counted by
the samples.
-/

namespace FixedPointNet.Classification

variable {width : Nat} {row : List Float} {rows : List (List Float)} {predicted labels : List Nat}

/-- The class that the scores of one sample decide for. -/
def decision (width : Nat) (row : List Float) : Nat :=
  if width ≤ 1 then (if 0.5 ≤ row.headD 0 then 1 else 0) else argmax row

/-- Every row of a batch of scores has its own class. -/
theorem classes_flatten (pos : 0 < width) (widths : ∀ row ∈ rows, row.length = width) :
    classes width rows.flatten = rows.map (decision width) := by
  unfold classes decision
  split_ifs with single
  · obtain rfl : width = 1 := by omega
    rw [List.map_flatten, ← List.flatMap_def]
    induction rows with
    | nil => rfl
    | cons row rows ih =>
      obtain ⟨score, rfl⟩ := List.length_eq_one_iff.mp (widths row List.mem_cons_self)
      rw [List.flatMap_cons, ih fun row' member => widths row' (List.mem_cons_of_mem _ member)]
      rfl
  · rw [length_flatten_of_widths widths, Nat.mul_div_cancel _ pos, pieces_flatten widths]

/-- The scores of one sample have one class. -/
theorem classes_row (pos : 0 < width) (length : row.length = width) :
    classes width row = [decision width row] := by
  have widths : ∀ row' ∈ [row], row'.length = width := by simpa using length
  have single := classes_flatten pos widths
  rwa [List.flatten_singleton] at single

/-- A run whose result has one class has no other. -/
theorem class_unique {ε α : Type} {run : Except ε α} {decide : α → List Nat} {c c' : Nat}
    (gives : ∃ scores, run = .ok scores ∧ decide scores = [c])
    (gives' : ∃ scores, run = .ok scores ∧ decide scores = [c']) : c = c' := by
  obtain ⟨scores, ok, own⟩ := gives
  obtain ⟨scores', ok', own'⟩ := gives'
  obtain rfl := Except.ok.inj (ok.symm.trans ok')
  exact List.singleton_inj.mp (own.symm.trans own')

open Classical in
/-- Where each class follows from its sample, the hits are the samples whose label follows from
    them. -/
theorem countP_zip_of_forall₂ {σ : Type} {Decides : σ → Nat → Prop} {samples : List σ}
    (decided : List.Forall₂ Decides samples predicted)
    (functional : ∀ sample c c', Decides sample c → Decides sample c' → c = c')
    (labels : List Nat) :
    ((predicted.zip labels).countP fun (p, l) => p == l) =
      (samples.zip labels).countP fun (sample, l) => decide (Decides sample l) := by
  induction decided generalizing labels with
  | nil => rfl
  | @cons sample c samples predicted decides _ ih =>
    cases labels with
    | nil => rfl
    | cons l labels =>
      have agrees : (c == l) = decide (Decides sample l) := by
        rw [Bool.eq_iff_iff, beq_iff_eq, decide_eq_true_iff]
        exact ⟨fun same => same ▸ decides, functional sample c l decides⟩
      simp only [List.zip_cons_cons, List.countP_cons, ih, agrees]

open Classical in
/-- Counting pairs is counting their positions. -/
theorem countP_range_eq_countP_zip {σ : Type} (Decides : σ → Nat → Prop) {samples : List σ}
    (same : samples.length = labels.length) :
    ((List.range labels.length).countP fun i => decide (∃ sample l, samples[i]? = some sample ∧
        labels[i]? = some l ∧ Decides sample l)) =
      (samples.zip labels).countP fun (sample, l) => decide (Decides sample l) := by
  induction samples generalizing labels with
  | nil =>
    cases labels with
    | nil => rfl
    | cons => cases same
  | cons sample samples ih =>
    cases labels with
    | nil => cases same
    | cons l labels =>
      rw [List.zip_cons_cons, List.countP_cons, ← ih (Nat.succ_inj.mp same), List.length_cons,
        List.range_succ_eq_map, List.countP_cons, List.countP_map]
      simp [Function.comp_def]

end FixedPointNet.Classification
