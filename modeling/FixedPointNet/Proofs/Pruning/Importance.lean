import FixedPointNet.Proofs.Layer.Columns
import FixedPointNet.Proofs.Layer.Restriction
import FixedPointNet.Proofs.Pruning.Ranking

/-!
# Importance on the kept inputs

The importance of a neuron is the sum of its column's magnitudes. In a restricted layer it is the
sum over the kept inputs of the layer itself, so what a restricted layer keeps can be said of the
unrestricted one: `Layer.keptOutputs`.
-/

namespace FixedPointNet.Layer

/-- The importance of output `o` measured on some of the inputs only, in their order. -/
def importanceOn (l : Layer Parameter) (inputs : List Nat) (o : Nat) : Float32 :=
  (inputs.filterMap fun i => l.weight? i o).foldl (fun sum w => sum + w.value.abs) 0

/-- The outputs that are left when the given number of least important ones is removed, where
    importance is measured on some of the inputs only. -/
def keptOutputs (l : Layer Parameter) (inputs : List Nat) (remove : Nat) : List Nat :=
  keptAmong (l.importanceOn inputs) l.outputs remove

variable {l : Layer Parameter} {inputs outputs : List Nat}

theorem Consistent.importance_eq (consistent : l.Consistent) :
    l.importance = .ok ((List.range l.outputs).map (l.importanceOn (List.range l.inputs))) := by
  have all_rows : (List.range l.inputs).mapM l.row = .ok l.rows := by
    rw [consistent.mapM_row (within_range l.inputs), entries_rows_range]
  have sums : l.rows.foldl addMagnitudes (List.replicate l.outputs 0) =
      (List.range l.outputs).map (l.importanceOn (List.range l.inputs)) := by
    refine (foldl_zipWith_eq_mapIdx ?_).trans ?_
    · intro row member
      rw [consistent.length_row member, List.length_replicate]
    · rw [List.mapIdx_eq_iff]
      intro o
      by_cases below : o < l.outputs
      · have columns := consistent.column_eq below
        rw [column] at columns
        simp [below, importanceOn, columns]
      · have past : l.outputs ≤ o := Nat.le_of_not_lt below
        simp [past]
  rw [importance, all_rows]
  simp only [bind, Except.bind, sums]
  rfl

theorem Consistent.survivors_eq (consistent : l.Consistent) (remove : Nat) :
    l.survivors remove = .ok (l.keptOutputs (List.range l.inputs) remove) := by
  have kept : ((ranking ((List.range l.outputs).map
      (l.importanceOn (List.range l.inputs)))).drop remove).mergeSort (· ≤ ·) =
      l.keptOutputs (List.range l.inputs) remove :=
    mergeSort_drop_eq_keptAmong (ranking_map_perm _ _) (ranking_map_pairwise _ _)
  rw [survivors, consistent.importance_eq]
  simp only [bind, Except.bind, kept]
  rfl

/-- In a restricted layer, importance is measured on the kept inputs. -/
theorem Consistent.importanceOn_restriction (consistent : l.Consistent)
    (rows : Within l.inputs inputs) (columns : Within l.outputs outputs) (inputs' : List Nat)
    {o c : Nat} (at_o : outputs[o]? = some c) :
    (l.restriction inputs outputs).importanceOn inputs' o =
      l.importanceOn (entries inputs inputs') c := by
  rw [importanceOn, importanceOn, consistent.filterMap_weight?_restriction rows columns at_o]

theorem within_keptOutputs (l : Layer Parameter) (inputs : List Nat) (remove : Nat) :
    Within l.outputs (l.keptOutputs inputs remove) :=
  within_keptAmong (l.importanceOn inputs) l.outputs remove

@[simp] theorem keptOutputs_zero (l : Layer Parameter) (inputs : List Nat) :
    l.keptOutputs inputs 0 = List.range l.outputs :=
  keptAmong_zero (l.importanceOn inputs) l.outputs

/-- A layer restricted in its inputs only keeps what the layer keeps on these inputs. -/
theorem Consistent.keptOutputs_restriction (consistent : l.Consistent)
    (rows : Within l.inputs inputs) (inputs' : List Nat) (remove : Nat) :
    (l.restriction inputs (List.range l.outputs)).keptOutputs inputs' remove =
      l.keptOutputs (entries inputs inputs') remove := by
  rw [keptOutputs, keptOutputs, outputs_restriction, List.length_range]
  apply keptAmong_congr
  intro o below
  exact consistent.importanceOn_restriction rows (within_range l.outputs) inputs'
    (List.getElem?_range below)

/-- Removing neurons from a layer restricted to some inputs restricts it to the kept outputs. -/
theorem Consistent.removeLeast_eq (consistent : l.Consistent) (rows : Within l.inputs inputs)
    (remove : Nat) :
    (l.restriction inputs (List.range l.outputs)).removeLeast remove =
      .ok (l.restriction inputs (l.keptOutputs inputs remove), l.keptOutputs inputs remove) := by
  have all : Within l.outputs (List.range l.outputs) := within_range l.outputs
  have restricted := consistent.restriction rows all
  have kept_within := within_keptOutputs l inputs remove
  have every_input : entries inputs (List.range inputs.length) = inputs := entries_range inputs
  have kept : (l.restriction inputs (List.range l.outputs)).survivors remove =
      .ok (l.keptOutputs inputs remove) := by
    rw [restricted.survivors_eq, consistent.keptOutputs_restriction rows, inputs_restriction,
      every_input]
  have pruned : (l.restriction inputs (List.range l.outputs)).restrictOutputs
      (l.keptOutputs inputs remove) = .ok (l.restriction inputs (l.keptOutputs inputs remove)) := by
    rw [restricted.restrictOutputs_eq (by simpa using kept_within), inputs_restriction,
      consistent.restriction_restriction rows all (within_range inputs.length)
        (by simpa using kept_within),
      entries_of_range kept_within, every_input]
  rw [removeLeast, kept]
  simp only [bind, Except.bind, pruned]
  rfl

/-- What is kept of the kept outputs is what is kept when both removals are made at once. -/
theorem Consistent.entries_keptOutputs (consistent : l.Consistent) (rows : Within l.inputs inputs)
    (remove more : Nat) :
    entries (l.keptOutputs inputs remove)
        ((l.restriction inputs (l.keptOutputs inputs remove)).keptOutputs
          (List.range inputs.length) more) =
      l.keptOutputs inputs (remove + more) := by
  apply entries_keptAmong
  intro i o at_i
  rw [consistent.importanceOn_restriction rows (within_keptOutputs l inputs remove) _ at_i,
    entries_range]

end FixedPointNet.Layer
