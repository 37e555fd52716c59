import FixedPointNet.Proofs.Layer.Rows

/-!
# Restrictions compose

`Layer.restriction` restricts a layer to inputs and outputs at once and cannot fail. On kept indices
that exist it is what restricting the inputs or the outputs returns. Restricting a restriction is
one restriction to the composed indices, and keeping every index changes nothing.
-/

namespace FixedPointNet.Layer

variable {α β : Type} {l : Layer α} {inputs outputs : List Nat}

/-- The layer with only the given inputs and outputs. -/
def restriction (l : Layer α) (inputs outputs : List Nat) : Layer α :=
  { inputs := inputs.length
    outputs := outputs.length
    weights := ((entries l.rows inputs).map fun row => entries row outputs).flatten
    bias := entries l.bias outputs
    activation := l.activation }

/-- Layer `q` is layer `l` on the given rows and columns, value by value. -/
structure RestrictedTo (l : Layer α) (rows columns : List Nat) (q : Layer α) : Prop where
  inputs : q.inputs = rows.length
  outputs : q.outputs = columns.length
  consistent : q.Consistent
  activation : q.activation = l.activation
  weight : ∀ i r o c, rows[i]? = some r → columns[o]? = some c →
    ∃ w, q.weight? i o = some w ∧ l.weight? r c = some w
  bias : ∀ o c : Nat, columns[o]? = some c → ∃ b, q.bias[o]? = some b ∧ l.bias[c]? = some b

@[simp] theorem inputs_restriction (l : Layer α) (inputs outputs : List Nat) :
    (l.restriction inputs outputs).inputs = inputs.length := rfl

@[simp] theorem outputs_restriction (l : Layer α) (inputs outputs : List Nat) :
    (l.restriction inputs outputs).outputs = outputs.length := rfl

theorem Consistent.length_restricted_row (consistent : l.Consistent)
    (kept : Within l.outputs outputs) {part : List α}
    (member : part ∈ (entries l.rows inputs).map fun row => entries row outputs) :
    part.length = outputs.length := by
  obtain ⟨row, row_member, rfl⟩ := List.mem_map.mp member
  have width : row.length = l.outputs := consistent.length_row (mem_of_mem_entries row_member)
  exact length_entries (by rwa [width])

/-- The rows of a restriction are the kept rows, each with its kept entries. -/
theorem Consistent.rows_restriction (consistent : l.Consistent) (rows : Within l.inputs inputs)
    (columns : Within l.outputs outputs) :
    (l.restriction inputs outputs).rows =
      (entries l.rows inputs).map fun row => entries row outputs := by
  have count : ((entries l.rows inputs).map fun row => entries row outputs).length =
      inputs.length := by
    rw [List.length_map, length_entries (by rwa [length_rows])]
  unfold Layer.rows restriction
  simp only
  rw [← count]
  exact pieces_flatten fun part => consistent.length_restricted_row columns

theorem Consistent.restriction (consistent : l.Consistent) (rows : Within l.inputs inputs)
    (columns : Within l.outputs outputs) : (l.restriction inputs outputs).Consistent where
  weights := by
    have count : (entries l.rows inputs).length = inputs.length :=
      length_entries (by rwa [length_rows])
    have widths : ∀ part ∈ (entries l.rows inputs).map fun row => entries row outputs,
        part.length = outputs.length :=
      fun part => consistent.length_restricted_row columns
    simp only [Layer.restriction]
    rw [length_flatten_of_widths widths, List.length_map, count]
  bias := length_entries (by rwa [consistent.bias])

/-- Restricting a restriction is restricting to the composed indices. -/
theorem Consistent.restriction_restriction (consistent : l.Consistent)
    (rows : Within l.inputs inputs) (columns : Within l.outputs outputs)
    {inputs' outputs' : List Nat} (rows' : Within inputs.length inputs')
    (columns' : Within outputs.length outputs') :
    (l.restriction inputs outputs).restriction inputs' outputs' =
      l.restriction (entries inputs inputs') (entries outputs outputs') := by
  have nested : ∀ row ∈ entries (entries l.rows inputs) inputs',
      entries (entries row outputs) outputs' = entries row (entries outputs outputs') := by
    intro row member
    have width : row.length = l.outputs :=
      consistent.length_row (mem_of_mem_entries (mem_of_mem_entries member))
    exact entries_entries (by rwa [width]) outputs'
  have weights : (entries (l.restriction inputs outputs).rows inputs').map
      (fun row => entries row outputs') =
      (entries l.rows (entries inputs inputs')).map
        fun row => entries row (entries outputs outputs') := by
    rw [consistent.rows_restriction rows columns, ← map_entries, List.map_map,
      ← entries_entries (by rwa [length_rows])]
    exact List.map_congr_left nested
  have bias : entries (entries l.bias outputs) outputs' =
      entries l.bias (entries outputs outputs') :=
    entries_entries (by rwa [consistent.bias]) outputs'
  rw [Layer.restriction, weights]
  simp only [Layer.restriction, bias, length_entries rows', length_entries columns']

theorem Consistent.restriction_all (consistent : l.Consistent) :
    l.restriction (List.range l.inputs) (List.range l.outputs) = l := by
  rw [Layer.restriction, consistent.map_entries_rows, entries_rows_range, consistent.flatten_rows,
    consistent.entries_bias_range, List.length_range, List.length_range]

theorem Consistent.restrictInputs_eq (consistent : l.Consistent) (rows : Within l.inputs inputs) :
    l.restrictInputs inputs = .ok (l.restriction inputs (List.range l.outputs)) := by
  rw [restrictInputs, consistent.mapM_row rows, Layer.restriction, consistent.map_entries_rows,
    consistent.entries_bias_range, List.length_range]
  rfl

theorem Consistent.restrictOutputs_eq (consistent : l.Consistent)
    (columns : Within l.outputs outputs) :
    l.restrictOutputs outputs = .ok (l.restriction (List.range l.inputs) outputs) := by
  have biases : pick l.bias outputs = .ok (entries l.bias outputs) :=
    pick_eq (by rwa [consistent.bias])
  have picked : l.rows.mapM (fun row => pick row outputs) =
      .ok (l.rows.map fun row => entries row outputs) := by
    apply mapM_eq_ok
    intro row member
    exact pick_eq (by rwa [consistent.length_row member])
  rw [restrictOutputs, consistent.mapM_row (within_range l.inputs), Layer.restriction,
    entries_rows_range, List.length_range]
  simp only [bind, Except.bind, picked, biases]
  rfl

/-- A weight of a restriction is the weight between the kept input and the kept output. -/
theorem Consistent.weight?_restriction (consistent : l.Consistent) (rows : Within l.inputs inputs)
    (columns : Within l.outputs outputs) {o c : Nat} (at_o : outputs[o]? = some c) (i : Nat) :
    (l.restriction inputs outputs).weight? i o = inputs[i]?.bind fun r => l.weight? r c := by
  have output : o < outputs.length := (List.getElem?_eq_some_iff.mp at_o).1
  have c_lt : c < l.outputs := columns c (List.mem_of_getElem? at_o)
  rw [(consistent.restriction rows columns).weight?_eq i output,
    consistent.rows_restriction rows columns, List.getElem?_map,
    getElem?_entries (by rwa [length_rows])]
  cases at_i : inputs[i]? with
  | none => rfl
  | some r =>
    rw [Option.bind_some, Option.bind_some, consistent.weight?_eq r c_lt]
    cases at_r : l.rows[r]? with
    | none => rfl
    | some row =>
      have width : row.length = l.outputs := consistent.length_row (List.mem_of_getElem? at_r)
      rw [Option.map_some, Option.bind_some, Option.bind_some,
        getElem?_entries (by rwa [width]), at_o, Option.bind_some]

theorem Consistent.filterMap_weight?_restriction (consistent : l.Consistent)
    (rows : Within l.inputs inputs) (columns : Within l.outputs outputs) {o c : Nat}
    (at_o : outputs[o]? = some c) (selected : List Nat) :
    selected.filterMap (fun i => (l.restriction inputs outputs).weight? i o) =
      (entries inputs selected).filterMap fun r => l.weight? r c := by
  rw [entries, List.filterMap_filterMap]
  apply List.filterMap_congr
  intro i _
  exact consistent.weight?_restriction rows columns at_o i

theorem Consistent.restrictedTo (consistent : l.Consistent) (rows : Within l.inputs inputs)
    (columns : Within l.outputs outputs) :
    l.RestrictedTo inputs outputs (l.restriction inputs outputs) where
  inputs := rfl
  outputs := rfl
  consistent := consistent.restriction rows columns
  activation := rfl
  weight := by
    intro i r o c at_i at_o
    obtain ⟨w, at_w⟩ := consistent.exists_weight? (rows r (List.mem_of_getElem? at_i))
      (columns c (List.mem_of_getElem? at_o))
    refine ⟨w, ?_, at_w⟩
    rw [consistent.weight?_restriction rows columns at_o, at_i, Option.bind_some, at_w]
  bias := by
    intro o c at_o
    have c_lt : c < l.outputs := columns c (List.mem_of_getElem? at_o)
    obtain ⟨b, at_c⟩ : ∃ b, l.bias[c]? = some b :=
      ⟨_, List.getElem?_eq_getElem (by rwa [consistent.bias])⟩
    refine ⟨b, ?_, at_c⟩
    rw [Layer.restriction, getElem?_entries (by rwa [consistent.bias]), at_o, Option.bind_some,
      at_c]

theorem map_restriction (f : α → β) (l : Layer α) (inputs outputs : List Nat) :
    (l.restriction inputs outputs).map f = (l.map f).restriction inputs outputs := by
  have rows : ((entries l.rows inputs).map fun row => entries row outputs).map (List.map f) =
      (entries (l.map f).rows inputs).map fun row => entries row outputs := by
    rw [rows_map, ← map_entries, List.map_map, List.map_map]
    exact List.map_congr_left fun row _ => map_entries f row outputs
  have weights : (l.restriction inputs outputs).weights.map f =
      ((l.map f).restriction inputs outputs).weights := by
    simp only [Layer.restriction, List.map_flatten, rows]
  have bias : (l.restriction inputs outputs).bias.map f =
      ((l.map f).restriction inputs outputs).bias :=
    map_entries f l.bias outputs
  rw [Layer.map, weights, bias]
  rfl

end FixedPointNet.Layer
