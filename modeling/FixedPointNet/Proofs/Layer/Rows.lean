import FixedPointNet.Proofs.Entries

/-!
# Rows of a weight matrix

A layer stores its weight matrix as one list. `Layer.rows` cuts it into one list per input. For a
consistent layer nothing is lost by that: the rows have the width of the outputs, together they are
the stored weights, and a single weight or row of the layer is an entry of them.
-/

namespace FixedPointNet

variable {α β : Type}

@[simp] theorem length_pieces (width count : Nat) (xs : List α) :
    (pieces width count xs).length = count := by
  induction count generalizing xs with
  | zero => rfl
  | succ count ih => simp [pieces, ih]

theorem length_flatten_of_widths {width : Nat} {parts : List (List α)}
    (widths : ∀ part ∈ parts, part.length = width) :
    parts.flatten.length = parts.length * width := by
  rw [List.length_flatten, List.map_congr_left widths, List.map_const', List.sum_replicate_nat]

/-- A list of pieces, joined and cut again, is what it was. -/
theorem pieces_flatten {width : Nat} {parts : List (List α)}
    (widths : ∀ part ∈ parts, part.length = width) :
    pieces width parts.length parts.flatten = parts := by
  induction parts with
  | nil => rfl
  | cons part parts ih =>
    have first : part.length = width := widths part List.mem_cons_self
    have rest := ih fun part' member => widths part' (List.mem_cons_of_mem part member)
    rw [List.length_cons, List.flatten_cons, pieces, List.take_left' first, List.drop_left' first,
      rest]

/-- A list that is as long as its pieces are together is cut without loss. -/
theorem flatten_pieces {width count : Nat} {xs : List α} (length : xs.length = count * width) :
    (pieces width count xs).flatten = xs := by
  induction count generalizing xs with
  | zero =>
    have empty : xs = [] := List.eq_nil_of_length_eq_zero (by simpa using length)
    simp [pieces, empty]
  | succ count ih =>
    have rest : (xs.drop width).length = count * width := by
      rw [List.length_drop, length, Nat.succ_mul, Nat.add_sub_cancel]
    rw [pieces, List.flatten_cons, ih rest, List.take_append_drop]

/-- Piece `i` begins after the `i` pieces before it. -/
theorem getElem?_pieces {width count i : Nat} (xs : List α) (below : i < count) :
    (pieces width count xs)[i]? = some ((xs.drop (i * width)).take width) := by
  induction count generalizing xs i with
  | zero => omega
  | succ count ih =>
    cases i with
    | zero => simp [pieces]
    | succ i =>
      rw [pieces, List.getElem?_cons_succ, ih (xs.drop width) (by omega), List.drop_drop,
        Nat.succ_mul, Nat.add_comm]

/-- Where the list is long enough, every piece has the full width. -/
theorem length_of_mem_pieces {width count : Nat} {xs part : List α}
    (length : count * width ≤ xs.length) (member : part ∈ pieces width count xs) :
    part.length = width := by
  obtain ⟨i, below, rfl⟩ := List.getElem_of_mem member
  rw [length_pieces] at below
  have at_i : (pieces width count xs)[i]? = some ((xs.drop (i * width)).take width) :=
    getElem?_pieces xs below
  rw [List.getElem?_eq_getElem (by simpa using below), Option.some.injEq] at at_i
  have inside : i * width + width ≤ xs.length := by
    calc i * width + width = (i + 1) * width := by rw [Nat.succ_mul]
      _ ≤ count * width := Nat.mul_le_mul_right width below
      _ ≤ xs.length := length
  rw [at_i, List.length_take, List.length_drop]
  omega

theorem pieces_map (f : α → β) (width count : Nat) (xs : List α) :
    pieces width count (xs.map f) = (pieces width count xs).map (List.map f) := by
  induction count generalizing xs with
  | zero => rfl
  | succ count ih => rw [pieces, pieces, List.map_cons, List.map_take, ← ih, List.map_drop]

namespace Layer

variable {l : Layer α}

@[simp] theorem length_rows (l : Layer α) : l.rows.length = l.inputs :=
  length_pieces l.outputs l.inputs l.weights

theorem Consistent.length_row (consistent : l.Consistent) {row : List α} (member : row ∈ l.rows) :
    row.length = l.outputs :=
  length_of_mem_pieces (Nat.le_of_eq consistent.weights.symm) member

@[simp] theorem entries_rows_range (l : Layer α) :
    entries l.rows (List.range l.inputs) = l.rows :=
  entries_range_of_length (length_rows l)

theorem Consistent.entries_bias_range (consistent : l.Consistent) :
    entries l.bias (List.range l.outputs) = l.bias :=
  entries_range_of_length consistent.bias

/-- Selecting all outputs from every row of a selection changes nothing. -/
theorem Consistent.map_entries_rows (consistent : l.Consistent) (inputs : List Nat) :
    (entries l.rows inputs).map (fun row => entries row (List.range l.outputs)) =
      entries l.rows inputs := by
  conv_rhs => rw [← List.map_id (entries l.rows inputs)]
  apply List.map_congr_left
  intro row member
  exact entries_range_of_length (consistent.length_row (mem_of_mem_entries member))

theorem Consistent.flatten_rows (consistent : l.Consistent) : l.rows.flatten = l.weights :=
  flatten_pieces consistent.weights

theorem row_eq_ok_iff {i : Nat} {row : List α} :
    l.row i = .ok row ↔ (i + 1) * l.outputs ≤ l.weights.length ∧
      (l.weights.drop (i * l.outputs)).take l.outputs = row := by
  by_cases inside : (i + 1) * l.outputs ≤ l.weights.length
  · simp [Layer.row, inside]
  · simp [Layer.row, inside]

theorem length_of_row_eq_ok {i : Nat} {row : List α} (read : l.row i = .ok row) :
    row.length = l.outputs := by
  obtain ⟨inside, rfl⟩ := row_eq_ok_iff.mp read
  rw [Nat.succ_mul] at inside
  simp
  omega

/-- All rows can be read where the weights reach to the end of the last one. -/
theorem exists_mapM_row_iff :
    (∃ rows, (List.range l.inputs).mapM l.row = .ok rows) ↔
      l.inputs * l.outputs ≤ l.weights.length := by
  have read_iff : ∀ i, (∃ row, l.row i = .ok row) ↔ (i + 1) * l.outputs ≤ l.weights.length := by
    simp [row_eq_ok_iff]
  simp only [exists_mapM_eq_ok_iff, read_iff, List.mem_range]
  refine ⟨fun each => ?_, fun filled i below => ?_⟩
  · cases inputs : l.inputs with
    | zero => simp
    | succ last => exact each last (by omega)
  · exact (Nat.mul_le_mul_right l.outputs below).trans filled

theorem take_drop_of_getElem?_rows {i : Nat} {row : List α} (at_i : l.rows[i]? = some row) :
    (l.weights.drop (i * l.outputs)).take l.outputs = row := by
  have below : i < l.inputs := by
    rw [← length_rows l]
    exact (List.getElem?_eq_some_iff.mp at_i).1
  rwa [rows, getElem?_pieces l.weights below, Option.some.injEq] at at_i

theorem length_le_of_getElem?_rows {i : Nat} {row : List α} (at_i : l.rows[i]? = some row) :
    row.length ≤ l.outputs :=
  take_drop_of_getElem?_rows at_i ▸ List.length_take_le _ _

/-- A row can be read where the stored weights fill it. -/
theorem row_eq {i : Nat} {row : List α} (at_i : l.rows[i]? = some row) :
    l.row i = if row.length < l.outputs then .error .outOfRange else .ok row := by
  have next : (i + 1) * l.outputs = i * l.outputs + l.outputs := Nat.succ_mul i l.outputs
  rw [Layer.row, ← take_drop_of_getElem?_rows at_i, List.length_take, List.length_drop]
  by_cases inside : (i + 1) * l.outputs ≤ l.weights.length
  · rw [if_pos inside, if_neg (by omega)]
  · have positive : 0 < l.outputs := Nat.pos_of_ne_zero fun none => inside (by simp [none])
    rw [if_neg inside, if_pos (by omega)]

theorem Consistent.row_eq (consistent : l.Consistent) {i : Nat} {row : List α}
    (at_i : l.rows[i]? = some row) : l.row i = .ok row := by
  have full : row.length = l.outputs := consistent.length_row (List.mem_of_getElem? at_i)
  rw [Layer.row_eq at_i, if_neg (by omega)]

theorem Consistent.mapM_row (consistent : l.Consistent) {kept : List Nat}
    (within : Within l.inputs kept) : kept.mapM l.row = .ok (entries l.rows kept) :=
  mapM_eq_entries (fun _ _ => consistent.row_eq) (by rwa [length_rows])

/-- A weight is an entry of the row of its input. -/
theorem Consistent.weight?_eq (consistent : l.Consistent) (i : Nat) {o : Nat}
    (below : o < l.outputs) : l.weight? i o = l.rows[i]?.bind fun row => row[o]? := by
  rw [weight?]
  by_cases input : i < l.inputs
  · rw [rows, getElem?_pieces l.weights input, Option.bind_some, List.getElem?_take_of_lt below,
      List.getElem?_drop]
  · have past : l.weights.length ≤ i * l.outputs + o := by
      rw [consistent.weights]
      have := Nat.mul_le_mul_right l.outputs (Nat.le_of_not_lt input)
      omega
    rw [List.getElem?_eq_none_iff.mpr past, List.getElem?_eq_none_iff.mpr (by simpa using input)]
    rfl

theorem Consistent.exists_weight? (consistent : l.Consistent) {i o : Nat} (input : i < l.inputs)
    (output : o < l.outputs) : ∃ w, l.weight? i o = some w := by
  have inside : i * l.outputs + o < l.weights.length := by
    rw [consistent.weights]
    calc i * l.outputs + o < i * l.outputs + l.outputs := Nat.add_lt_add_left output _
      _ = (i + 1) * l.outputs := (Nat.succ_mul i l.outputs).symm
      _ ≤ l.inputs * l.outputs := Nat.mul_le_mul_right l.outputs input
  exact ⟨_, List.getElem?_eq_getElem inside⟩

@[simp] theorem rows_map (f : α → β) (l : Layer α) : (l.map f).rows = l.rows.map (List.map f) :=
  pieces_map f l.outputs l.inputs l.weights

theorem Consistent.map (consistent : l.Consistent) (f : α → β) : (l.map f).Consistent where
  weights := by simpa [Layer.map] using consistent.weights
  bias := by simpa [Layer.map] using consistent.bias

end Layer

end FixedPointNet
