import FixedPointNet.FloatEngine.Buffer
import FixedPointNet.Proofs.FloatEngine.Sums

/-!
# Sums in place are the sums

A layer's sums can be written into a buffer in chunks of a vector unit, with the rest one by one.
Every chunk and every single step moves on the position up to which the products of an input are
added, and at the end of a row it is the width, so every output is reached once per input. The
buffer then holds what the layer's loop over its rows returns, and that is, for each output, one
fold over the inputs in order.
-/

namespace FixedPointNet

/-- A loop over consecutive positions ends in the last of the states that its steps lead through. -/
theorem foldlM_range'_eq_ok {ε β : Type} {f : β → Nat → Except ε β} (state : Nat → β)
    {start count : Nat}
    (step : ∀ k, start ≤ k → k < start + count → f (state k) k = .ok (state (k + 1))) :
    (List.range' start count).foldlM f (state start) = .ok (state (start + count)) := by
  induction count with
  | zero => rfl
  | succ count ih =>
    have before := ih fun k from_start below => step k from_start (by omega)
    have last := step (start + count) (by omega) (by omega)
    rw [List.range'_concat, List.foldlM_append, before, Nat.one_mul]
    simp [bind, Except.bind, last, Nat.add_assoc, pure, Except.pure]

/-- A loop over the positions of a list is a fold over its entries. -/
theorem foldlM_range_eq_foldl {α ε β : Type} {f : β → Nat → Except ε β} {g : β → α → β}
    {xs : List α} (step : ∀ b i (below : i < xs.length), f b i = .ok (g b xs[i])) (b : β) :
    (List.range xs.length).foldlM f b = .ok (xs.foldl g b) := by
  have advance : ∀ i, 0 ≤ i → i < 0 + xs.length →
      f ((xs.take i).foldl g b) i = .ok ((xs.take (i + 1)).foldl g b) := by
    intro i _ below
    rw [Nat.zero_add] at below
    rw [step _ i below, List.take_succ_eq_append_getElem below, List.foldl_append]
    rfl
  have loop := foldlM_range'_eq_ok (fun i => (xs.take i).foldl g b) advance
  simpa [List.range_eq_range'] using loop

/-- The sums with the products of a row added to those below position `k`. -/
def addedBelow (x : Float32) (weights sums : List Float32) (k : Nat) : List Float32 :=
  (sums.take k).zipWith (fun sum w => sum + x * w) (weights.take k) ++ sums.drop k

section Positions

variable {x : Float32} {weights sums : List Float32} {k : Nat}

theorem addedBelow_zero : addedBelow x weights sums 0 = sums := by
  simp [addedBelow]

theorem addedBelow_length (same : weights.length = sums.length) :
    addedBelow x weights sums sums.length = sums.zipWith (fun sum w => sum + x * w) weights := by
  rw [addedBelow, List.take_length, List.drop_length, List.append_nil, ← same, List.take_length]

theorem length_addedBelow (same : weights.length = sums.length) :
    (addedBelow x weights sums k).length = sums.length := by
  simp [addedBelow, same]
  omega

theorem length_products (same : weights.length = sums.length) (inside : k ≤ sums.length) :
    ((sums.take k).zipWith (fun sum w => sum + x * w) (weights.take k)).length = k := by
  simp [same, inside]

/-- From position `k` on, the sums are as they were. -/
theorem drop_addedBelow (same : weights.length = sums.length) (inside : k ≤ sums.length) :
    (addedBelow x weights sums k).drop k = sums.drop k :=
  List.drop_left' (length_products same inside)

/-- Writing the next `j` sums with their products added moves the position on by `j`. -/
theorem addedBelow_add (same : weights.length = sums.length) {j : Nat}
    (inside : k + j ≤ sums.length) :
    (addedBelow x weights sums k).take k ++
        ((sums.drop k).take j).zipWith (fun sum w => sum + x * w) ((weights.drop k).take j) ++
        (addedBelow x weights sums k).drop (k + j) =
      addedBelow x weights sums (k + j) := by
  have front := length_products (x := x) (k := k) same (by omega)
  rw [← List.drop_drop, drop_addedBelow same (by omega), List.drop_drop, addedBelow, addedBelow,
    List.take_left' front, List.take_add, List.take_add, List.zipWith_append (by simp [same])]

end Positions

variable {x : Float32} {weights sums : List Float32}

/-- A single step moves the position on by one. -/
theorem addSingle_addedBelow (same : weights.length = sums.length) {o : Nat}
    (below : o < sums.length) :
    addSingle x weights (addedBelow x weights sums o) o =
      .ok (addedBelow x weights sums (o + 1)) := by
  have in_weights : o < weights.length := by omega
  have in_buffer : o < (addedBelow x weights sums o).length := by rwa [length_addedBelow same]
  have untouched : (addedBelow x weights sums o)[o]? = some sums[o] := by
    rw [← List.head?_drop, drop_addedBelow same below.le, List.head?_drop,
      List.getElem?_eq_getElem below]
  have next : ((sums.drop o).take 1).zipWith (fun sum w => sum + x * w) ((weights.drop o).take 1) =
      [sums[o] + x * weights[o]] := by
    rw [List.drop_eq_getElem_cons below, List.drop_eq_getElem_cons in_weights]
    rfl
  rw [addSingle, untouched, List.getElem?_eq_getElem in_weights, ← addedBelow_add same below, next]
  simp [List.set_eq_take_append_cons_drop, in_buffer]

namespace VectorUnit

variable {unit : VectorUnit}

theorem laneWise_registers : registers.LaneWise where
  lanes_ofLanes _ := rfl
  lanes_splat _ := rfl
  lanes_mul _ _ := rfl
  lanes_add _ _ := rfl

/-- On registers loaded from two lists, a lane-wise unit adds the products of their entries. -/
theorem LaneWise.toList_lanes (laneWise : unit.LaneWise) (x : Float32) (full : 8 ≤ sums.length)
    (full' : 8 ≤ weights.length) :
    (unit.lanes (unit.add (unit.ofLanes (Register.load sums))
      (unit.mul (unit.splat x) (unit.ofLanes (Register.load weights))))).toList =
      (sums.take 8).zipWith (fun sum w => sum + x * w) (weights.take 8) := by
  rw [laneWise.lanes_add, laneWise.lanes_mul, laneWise.lanes_splat, laneWise.lanes_ofLanes,
    laneWise.lanes_ofLanes]
  exact Register.toList_addProducts x full full'

/-- A chunk moves the position on by eight. -/
theorem LaneWise.addChunk_addedBelow (laneWise : unit.LaneWise)
    (same : weights.length = sums.length) {chunk : Nat} (inside : chunk * 8 + 8 ≤ sums.length) :
    unit.addChunk (unit.splat x) weights (addedBelow x weights sums (chunk * 8)) chunk =
      .ok (addedBelow x weights sums (chunk * 8 + 8)) := by
  have in_weights : chunk * 8 + 8 ≤ weights.length := by omega
  have in_buffer : chunk * 8 + 8 ≤ (addedBelow x weights sums (chunk * 8)).length := by
    rwa [length_addedBelow same]
  have full : 8 ≤ (sums.drop (chunk * 8)).length := by
    rw [List.length_drop]
    omega
  have full' : 8 ≤ (weights.drop (chunk * 8)).length := by
    rw [List.length_drop]
    omega
  have added := laneWise.toList_lanes x full full'
  rw [addChunk, readLanes, if_pos in_weights, readLanes, if_pos in_buffer,
    drop_addedBelow same (by omega)]
  simp only [bind, Except.bind, writeAt, Vector.length_toList, if_pos in_buffer]
  rw [added, addedBelow_add same inside]

/-- A row of products is added to every entry of the buffer, each of them once. -/
theorem LaneWise.addRow_eq (laneWise : unit.LaneWise) (x : Float32)
    (same : weights.length = sums.length) :
    unit.addRow sums.length x weights sums =
      .ok (sums.zipWith (fun sum w => sum + x * w) weights) := by
  have chunks : (List.range (sums.length / 8)).foldlM (unit.addChunk (unit.splat x) weights) sums =
      .ok (addedBelow x weights sums (0 + sums.length / 8 * 8)) := by
    have step : ∀ chunk, 0 ≤ chunk → chunk < 0 + sums.length / 8 →
        unit.addChunk (unit.splat x) weights (addedBelow x weights sums (chunk * 8)) chunk =
          .ok (addedBelow x weights sums ((chunk + 1) * 8)) := by
      intro chunk _ below
      rw [Nat.succ_mul]
      exact laneWise.addChunk_addedBelow same (by omega)
    have loop := foldlM_range'_eq_ok (fun chunk => addedBelow x weights sums (chunk * 8)) step
    simpa [List.range_eq_range', addedBelow_zero] using loop
  have singles : (List.range' (sums.length / 8 * 8) (sums.length - sums.length / 8 * 8)).foldlM
      (addSingle x weights) (addedBelow x weights sums (sums.length / 8 * 8)) =
        .ok (addedBelow x weights sums sums.length) := by
    have step : ∀ o, sums.length / 8 * 8 ≤ o →
        o < sums.length / 8 * 8 + (sums.length - sums.length / 8 * 8) →
        addSingle x weights (addedBelow x weights sums o) o =
          .ok (addedBelow x weights sums (o + 1)) :=
      fun o _ below => addSingle_addedBelow same (by omega)
    have loop := foldlM_range'_eq_ok (addedBelow x weights sums) step
    rwa [Nat.add_sub_cancel' (Nat.div_mul_le_self _ _)] at loop
  rw [addRow, chunks]
  simp only [bind, Except.bind, Nat.zero_add]
  rw [singles, addedBelow_length same]

end VectorUnit

namespace Layer

variable {unit : VectorUnit} {l : Layer Parameter}

/-- An input and its position do to the buffer what the input and its row do to the sums. -/
theorem addInputInto_eq (laneWise : unit.LaneWise) {i : Nat} {row : List Parameter}
    (at_i : l.rows[i]? = some row) (length : sums.length = l.outputs) (x : Float32) :
    addInputInto unit l sums (x, i) = addFloatInput l.outputs sums (x, row) := by
  have at_most : row.length ≤ l.outputs := length_le_of_getElem?_rows at_i
  rw [addInputInto, addFloatInput, row_eq at_i]
  by_cases short : row.length < l.outputs
  · simp [short, bind, Except.bind]
  · have same : (row.map Parameter.value).length = sums.length := by
      rw [List.length_map]
      omega
    have in_place := laneWise.addRow_eq x same
    have fill : l.outputs / 8 * 8 ≤ sums.length := length ▸ Nat.div_mul_le_self _ _
    rw [length] at in_place
    simp [short, bind, Except.bind, in_place, addRow_eq x same fill]

theorem length_of_addFloatInput_eq_ok {width : Nat} {row : List Parameter} {added : List Float32}
    (at_most : row.length ≤ width) (length : sums.length = width)
    (read : addFloatInput width sums (x, row) = .ok added) : added.length = width := by
  by_cases zero : x == 0
  · have unchanged : sums = added := by simpa [addFloatInput, zero] using read
    rw [← unchanged, length]
  · by_cases short : row.length < width
    · simp [addFloatInput, zero, short] at read
    · have full : row.length = width := by omega
      rw [addFloatInput_eq x full length, addInput_eq full length, Except.ok.injEq] at read
      simp [← read, full, length]

/-- Going through the inputs by position is going through the rows, from any position on. -/
theorem foldlM_addInputInto (laneWise : unit.LaneWise) {xs : List Float32} {k : Nat}
    (fits : k + xs.length = l.inputs) (length : sums.length = l.outputs) :
    (xs.zipIdx k).foldlM (addInputInto unit l) sums =
      (xs.zip (l.rows.drop k)).foldlM (addFloatInput l.outputs) sums := by
  induction xs generalizing sums k with
  | nil => simp
  | cons x xs ih =>
    have below : k < l.rows.length := by
      rw [length_rows, ← fits, List.length_cons]
      omega
    have at_k : l.rows[k]? = some l.rows[k] := List.getElem?_eq_getElem below
    rw [List.zipIdx_cons, List.drop_eq_getElem_cons below, List.zip_cons_cons, List.foldlM_cons,
      List.foldlM_cons, addInputInto_eq laneWise at_k length]
    cases read : addFloatInput l.outputs sums (x, l.rows[k]) with
    | error fault => rfl
    | ok added =>
      have at_most : l.rows[k].length ≤ l.outputs := length_le_of_getElem?_rows at_k
      exact ih (by rw [← fits, List.length_cons]; omega)
        (length_of_addFloatInput_eq_ok at_most length read)

/-- Whatever a buffer of the right length holds, the layer writes its sums into it. -/
theorem affineInto_eq (laneWise : unit.LaneWise) (xs : List Float32) {buffer : List Float32}
    (length : buffer.length = l.outputs) : l.affineInto unit xs buffer = l.affine xs := by
  by_cases fits : xs.length = l.inputs ∧ l.bias.length = l.outputs
  · obtain ⟨width, biases⟩ := fits
    have copied : writeAt buffer 0 (l.bias.map Parameter.value) =
        .ok (l.bias.map Parameter.value) := by
      simp [writeAt, length, biases]
    have start : (l.bias.map Parameter.value).length = l.outputs := by rw [List.length_map, biases]
    have loop := foldlM_addInputInto laneWise ((Nat.zero_add _).trans width) start
    rw [List.drop_zero] at loop
    simp [affineInto, affine, width, biases, length, copied, loop, bind, Except.bind]
  · rw [affineInto, affine, if_pos (by omega), if_pos (by omega)]

/-- The sum of one output with the product of input `i` added. An input that is zero is passed
    over. -/
def addProductAt (l : Layer Parameter) (xs : List Float32) (o : Nat) (sum : Float32) (i : Nat) :
    Except Fault Float32 :=
  match xs[i]? with
  | none => .error .outOfRange
  | some x =>
    if x == 0 then .ok sum
    else do
      let w ← l.weight i o
      return addProduct sum x w

/-- One output of a sample, computed without the others: its bias, and one product after the other
    in the order of the inputs. -/
def scalarSum (l : Layer Parameter) (xs : List Float32) (o : Nat) : Except Fault Float32 :=
  match l.bias[o]? with
  | none => .error .outOfRange
  | some start => (List.range l.inputs).foldlM (l.addProductAt xs o) start.value

theorem Consistent.addProductAt_eq (consistent : l.Consistent) (xs : List Float32) {o i : Nat}
    (below : o < l.outputs) (in_zip : i < (xs.zip (l.column o)).length) (sum : Float32) :
    l.addProductAt xs o sum i =
      .ok (addUnlessZero (· == 0) addProduct sum (xs.zip (l.column o))[i]) := by
  obtain ⟨in_xs, in_column⟩ : i < xs.length ∧ i < (l.column o).length := by simpa using in_zip
  have at_i : l.weight? i o = some (l.column o)[i] := by
    rw [← consistent.getElem?_column below, List.getElem?_eq_getElem in_column]
  rw [addProductAt, List.getElem?_eq_getElem in_xs, List.getElem_zip]
  by_cases zero : xs[i] == 0
  · simp [addUnlessZero, zero]
  · simp [addUnlessZero, zero, weight, at_i, bind, Except.bind, pure, Except.pure]

/-- What is computed for one output alone is the sum over its column. -/
theorem Consistent.scalarSum_eq (consistent : l.Consistent) {xs : List Float32}
    (width : xs.length = l.inputs) {o : Nat} {start : Parameter} (at_o : l.bias[o]? = some start) :
    l.scalarSum xs o = .ok (columnSum (· == 0) addProduct start.value xs (l.column o)) := by
  have below : o < l.outputs := consistent.bias ▸ (List.getElem?_eq_some_iff.mp at_o).1
  have height : (xs.zip (l.column o)).length = l.inputs := by
    simp [width, consistent.length_column below]
  have loop := foldlM_range_eq_foldl
    (fun sum _ in_zip => consistent.addProductAt_eq xs below in_zip sum) start.value
  rw [height] at loop
  rw [scalarSum, at_o]
  exact loop

/-- The sums of a consistent layer, in chunks or not, are those of its outputs one by one. On a
    sample of the layer's width a lane-wise unit leaves the sum of every output in the buffer, bit
    for bit, and what the buffer held before makes no difference. -/
theorem affineInto_eq_scalarSum (laneWise : unit.LaneWise) (consistent : l.Consistent)
    {xs : List Float32} (width : xs.length = l.inputs) :
    ∃ sums, l.affine xs = .ok sums ∧ sums.length = l.outputs ∧
      (∀ buffer : List Float32, buffer.length = l.outputs →
        l.affineInto unit xs buffer = .ok sums) ∧
      ∀ o < l.outputs, ∃ sum, l.scalarSum xs o = .ok sum ∧ sums[o]? = some sum := by
  have biases : (l.bias.map Parameter.value).length = l.outputs := by simp [consistent.bias]
  have summed := consistent.affine_eq width
  rw [consistent.sums_eq _ _ biases] at summed
  refine ⟨_, summed, ?_, ?_, ?_⟩
  · rw [List.length_mapIdx, biases]
  · intro buffer length
    rw [affineInto_eq laneWise xs length, summed]
  · intro o below
    have in_bias : o < l.bias.length := consistent.bias.symm ▸ below
    have at_o := List.getElem?_eq_getElem in_bias
    refine ⟨_, consistent.scalarSum_eq width at_o, ?_⟩
    simp [in_bias]

/-- Two inputs and eleven outputs: a chunk and three single sums. -/
def elevenWide : Layer Parameter where
  inputs := 2
  outputs := 11
  weights := (List.range 22).map fun k => .ofFloat32 (Float32.ofNat k / 10)
  bias := (List.range 11).map fun o => .ofFloat32 (Float32.ofNat o / 100)
  activation := .relu

theorem affineInto_eq_scalarSum_elevenWide :
    VectorUnit.registers.LaneWise ∧ elevenWide.Consistent ∧ [(0 : Float32), 3].length = 2 ∧
      ∃ sums, elevenWide.affine [0, 3] = .ok sums ∧ sums.length = 11 ∧
        (∀ buffer : List Float32, buffer.length = 11 →
          elevenWide.affineInto .registers [0, 3] buffer = .ok sums) ∧
        ∀ o < 11, ∃ sum, elevenWide.scalarSum [0, 3] o = .ok sum ∧ sums[o]? = some sum := by
  have consistent : elevenWide.Consistent := ⟨by simp [elevenWide], by simp [elevenWide]⟩
  exact ⟨VectorUnit.laneWise_registers, consistent, rfl,
    affineInto_eq_scalarSum VectorUnit.laneWise_registers consistent rfl⟩

end Layer

end FixedPointNet
