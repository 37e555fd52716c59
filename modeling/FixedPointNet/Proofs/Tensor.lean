import FixedPointNet.Proofs.Layer.Rows
import FixedPointNet.Tensor

/-!
# Rows of a tensor

A tensor with enough data has the rows that its widths announce, each of the announced width.
-/

namespace FixedPointNet.Tensor

variable {t : Tensor}

/-- The data reaches to the end of the last row. -/
def Whole (t : Tensor) : Prop :=
  t.rows * t.columns ≤ t.data.length

/-- The rows of a tensor. -/
def rowList (t : Tensor) : List (List Int64) :=
  pieces t.columns t.rows t.data

@[simp] theorem length_rowList (t : Tensor) : t.rowList.length = t.rows :=
  length_pieces t.columns t.rows t.data

theorem Whole.length_row (whole : t.Whole) {words : List Int64} (member : words ∈ t.rowList) :
    words.length = t.columns :=
  length_of_mem_pieces whole member

theorem Whole.row_eq (whole : t.Whole) {r : Nat} {words : List Int64}
    (at_r : t.rowList[r]? = some words) : t.row r = .ok words := by
  have below : r < t.rows := by
    rw [← length_rowList t]
    exact (List.getElem?_eq_some_iff.mp at_r).1
  have inside : (r + 1) * t.columns ≤ t.data.length :=
    Nat.le_trans (Nat.mul_le_mul_right t.columns below) whole
  rw [rowList, getElem?_pieces t.data below, Option.some.injEq] at at_r
  rw [row, if_pos inside, at_r]

/-- The rows of a whole tensor are what reading its rows returns. -/
theorem Whole.mem_rowList_iff (whole : t.Whole) {words : List Int64} :
    words ∈ t.rowList ↔ ∃ r < t.rows, t.row r = .ok words := by
  constructor
  · intro member
    obtain ⟨r, below, at_r⟩ := List.getElem_of_mem member
    have below' : r < t.rows := by simpa using below
    exact ⟨r, below', whole.row_eq (List.getElem?_eq_some_iff.mpr ⟨below, at_r⟩)⟩
  · rintro ⟨r, below, read⟩
    have inside : r < t.rowList.length := by simpa using below
    have at_r : t.rowList[r]? = some t.rowList[r] := List.getElem?_eq_getElem inside
    rw [whole.row_eq at_r, Except.ok.injEq] at read
    exact read ▸ List.getElem_mem _

theorem Whole.mapM_row (whole : t.Whole) : (List.range t.rows).mapM t.row = .ok t.rowList := by
  rw [mapM_eq_entries (fun _ _ => whole.row_eq) (by simpa using within_range t.rows),
    ← length_rowList t, entries_range]

section Flatten

variable {rows columns : Nat} {parts : List (List Int64)}

theorem length_flatten (count : parts.length = rows)
    (widths : ∀ part ∈ parts, part.length = columns) : parts.flatten.length = rows * columns := by
  rw [length_flatten_of_widths widths, count]

/-- The tensor of rows of one width has these rows. -/
theorem row_flatten {r : Nat} {part : List Int64} (count : parts.length = rows)
    (widths : ∀ part ∈ parts, part.length = columns) (at_r : parts[r]? = some part) :
    row ⟨rows, columns, parts.flatten⟩ r = .ok part := by
  have whole : Whole ⟨rows, columns, parts.flatten⟩ :=
    Nat.le_of_eq (length_flatten count widths).symm
  subst count
  have same : rowList ⟨parts.length, columns, parts.flatten⟩ = parts := pieces_flatten widths
  exact whole.row_eq (by rwa [same])

end Flatten

end FixedPointNet.Tensor
