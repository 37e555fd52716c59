import FixedPointNet.FloatEngine
import FixedPointNet.Proofs.Layer.Columns

/-!
# Registers add like single numbers

Working on eight sums at a time, and on the rest one by one, adds to every sum the same product as
working on all of them one by one. So the floating engine's sums are the weighted sums of a layer,
whatever the width and however it splits into registers.
-/

namespace FixedPointNet

theorem Register.toList_addProducts {sums weights : List Float32} (x : Float32)
    (full : 8 ≤ sums.length) (full' : 8 ≤ weights.length) :
    ((load sums).addProducts x (load weights)).toList =
      (sums.take 8).zipWith (fun sum w => sum + x * w) (weights.take 8) := by
  apply List.ext_getElem
  · simp
    omega
  · intro lane lane_lt _
    have lane_lt' : lane < 8 := by simpa using lane_lt
    have in_sums : lane < sums.length := by omega
    have in_weights : lane < weights.length := by omega
    rw [Vector.getElem_toList]
    simp only [addProducts, load, splat, Vector.getElem_zipWith, Vector.getElem_replicate,
      Vector.getElem_ofFn]
    simp [in_sums, in_weights]

namespace Layer

/-- The sum of one output with one product added. -/
def addProduct (sum x : Float32) (w : Parameter) : Float32 :=
  sum + x * w.value

/-- A row of products is added entry by entry, however many registers it fills. -/
theorem addRow_eq {registers : Nat} {sums weights : List Float32} (x : Float32)
    (same : weights.length = sums.length) (fill : registers * 8 ≤ sums.length) :
    addRow x registers sums weights = sums.zipWith (fun sum w => sum + x * w) weights := by
  induction registers generalizing sums weights with
  | zero => rfl
  | succ registers ih =>
    have full : 8 ≤ sums.length := by omega
    have rest : addRow x registers (sums.drop 8) (weights.drop 8) =
        (sums.drop 8).zipWith (fun sum w => sum + x * w) (weights.drop 8) :=
      ih (by simp [same]) (by rw [List.length_drop]; omega)
    rw [addRow, rest, Register.toList_addProducts x full (by omega), ← List.zipWith_append]
    · rw [List.take_append_drop, List.take_append_drop]
    · simp [same]

variable {width : Nat} {rows : List (List Parameter)} {sums : List Float32}

theorem addFloatInput_eq {row : List Parameter} (x : Float32) (row_width : row.length = width)
    (length : sums.length = width) :
    addFloatInput width sums (x, row) = addInput width (· == 0) addProduct sums (x, row) := by
  have added : addRow x (width / 8) sums (row.map Parameter.value) =
      sums.zipWith (fun sum w => addProduct sum x w) row := by
    rw [addRow_eq x (by simp [row_width, length]) (by omega), List.zipWith_map_right]
    rfl
  simp only [addFloatInput, addInput, added]

theorem foldlM_addFloatInput (widths : ∀ row ∈ rows, row.length = width)
    (length : sums.length = width) (xs : List Float32) :
    (xs.zip rows).foldlM (addFloatInput width) sums =
      (xs.zip rows).foldlM (addInput width (· == 0) addProduct) sums := by
  induction rows generalizing sums xs with
  | nil => simp
  | cons row rows ih =>
    cases xs with
    | nil => rfl
    | cons x xs =>
      have row_width : row.length = width := widths row List.mem_cons_self
      rw [List.zip_cons_cons, List.foldlM_cons, List.foldlM_cons,
        addFloatInput_eq x row_width length, addInput_eq row_width length]
      apply ih fun row' member => widths row' (List.mem_cons_of_mem row member)
      simp [row_width, length]

/-- On a sample of its width, a consistent layer returns its weighted sums. -/
theorem Consistent.affine_eq {l : Layer Parameter} (consistent : l.Consistent) {xs : List Float32}
    (width : xs.length = l.inputs) :
    l.affine xs = l.sums (· == 0) addProduct (l.bias.map Parameter.value) xs := by
  have fits : ¬ (xs.length ≠ l.inputs ∨ l.bias.length ≠ l.outputs) := by
    simp [width, consistent.bias]
  rw [affine, if_neg fits, sums]
  exact foldlM_addFloatInput (fun _ => consistent.length_row) (by simp [consistent.bias]) xs

end Layer

end FixedPointNet
