import FixedPointNet.Layer.Sums
import FixedPointNet.Proofs.Layer.Rows

/-!
# Sums are taken column by column

A layer's loop keeps all running sums at once and goes through its rows. Each of the sums depends on
one column of weights only: it is the fold over the inputs, in order, of that column.
-/

namespace FixedPointNet.Layer

variable {α β ξ : Type} {l : Layer α}

/-- The weights that enter output `o`, in the order of the inputs. -/
def column (l : Layer α) (o : Nat) : List α :=
  l.rows.filterMap fun row => row[o]?

theorem Consistent.exists_entry (consistent : l.Consistent) {o : Nat} (below : o < l.outputs) :
    ∀ row ∈ l.rows, ∃ w, row[o]? = some w :=
  fun _ member => ⟨_, List.getElem?_eq_getElem (by rwa [consistent.length_row member])⟩

theorem Consistent.length_column (consistent : l.Consistent) {o : Nat} (below : o < l.outputs) :
    (l.column o).length = l.inputs := by
  rw [column, length_filterMap_of_some (consistent.exists_entry below), length_rows]

theorem Consistent.getElem?_column (consistent : l.Consistent) {o : Nat} (below : o < l.outputs)
    (i : Nat) : (l.column o)[i]? = l.weight? i o := by
  rw [column, getElem?_filterMap_of_some (consistent.exists_entry below),
    consistent.weight?_eq i below]

theorem Consistent.column_eq (consistent : l.Consistent) {o : Nat} (below : o < l.outputs) :
    l.column o = (List.range l.inputs).filterMap fun i => l.weight? i o := by
  rw [← entries_range (l.column o), consistent.length_column below, entries]
  exact List.filterMap_congr fun i _ => consistent.getElem?_column below i

/-- Adds one product to a sum, unless the input counts as zero. -/
def addUnlessZero (isZero : ξ → Bool) (addProduct : β → ξ → α → β) (sum : β) (p : ξ × α) : β :=
  if isZero p.1 then sum else addProduct sum p.1 p.2

/-- One sum over a column of weights. An input that counts as zero is passed over. -/
def columnSum (isZero : ξ → Bool) (addProduct : β → ξ → α → β) (start : β) (xs : List ξ)
    (weights : List α) : β :=
  (xs.zip weights).foldl (addUnlessZero isZero addProduct) start

theorem filterMap_rows_cons {row : List α} {o : Nat} (below : o < row.length)
    (rows : List (List α)) :
    (row :: rows).filterMap (fun row => row[o]?) =
      row[o] :: rows.filterMap fun row => row[o]? :=
  List.filterMap_cons_some (List.getElem?_eq_getElem below)

/-- A loop that combines every row with the running sums treats each column on its own. -/
theorem foldl_zipWith_eq_mapIdx {step : β → α → β} {rows : List (List α)} {initial : List β}
    (widths : ∀ row ∈ rows, row.length = initial.length) :
    rows.foldl (fun sums row => sums.zipWith step row) initial =
      initial.mapIdx fun o start => (rows.filterMap fun row => row[o]?).foldl step start := by
  -- on the rows: behind the first one, the running sums are the initial sums of the rest
  induction rows generalizing initial with
  | nil =>
    rw [eq_comm, List.mapIdx_eq_iff]
    intro o
    simp
  | cons row rows ih =>
    have width : row.length = initial.length := widths row List.mem_cons_self
    have same : (initial.zipWith step row).length = initial.length := by
      rw [List.length_zipWith, width, Nat.min_self]
    have rest : ∀ row' ∈ rows, row'.length = (initial.zipWith step row).length := by
      intro row' member
      rw [widths row' (List.mem_cons_of_mem row member), same]
    rw [List.foldl_cons, ih rest, List.mapIdx_eq_iff]
    intro o
    by_cases below : o < initial.length
    · have reached : o < row.length := by rwa [width]
      simp [filterMap_rows_cons reached, below, reached]
    · have past : initial.length ≤ o := Nat.le_of_not_lt below
      simp [past]

section Loop

variable {isZero : ξ → Bool} {addProduct : β → ξ → α → β} {width : Nat} {rows : List (List α)}

/-- One step of the loop adds to every sum, or to none where the input counts as zero. -/
theorem addInput_eq {sums : List β} {x : ξ} {row : List α} (row_width : row.length = width)
    (length : sums.length = width) :
    addInput width isZero addProduct sums (x, row) =
      .ok (sums.zipWith (addUnlessZero isZero addProduct) (row.map (Prod.mk x))) := by
  by_cases zero : isZero x
  · have unchanged : sums.zipWith (addUnlessZero isZero addProduct) (row.map (Prod.mk x)) =
        sums := by
      apply List.ext_getElem
      · simp [row_width, length]
      · intro o _ _
        simp [addUnlessZero, zero]
    rw [addInput, if_pos zero, unchanged]
  · have full : ¬ row.length < width := by omega
    rw [addInput, if_neg zero, if_neg full, List.zipWith_map_right]
    simp [addUnlessZero, zero]

/-- The loop over rows of one width succeeds. -/
theorem foldlM_addInput {initial : List β} (widths : ∀ row ∈ rows, row.length = width)
    (length : initial.length = width) (xs : List ξ) :
    (xs.zip rows).foldlM (addInput width isZero addProduct) initial =
      .ok (((xs.zip rows).map fun p => p.2.map (Prod.mk p.1)).foldl
        (fun sums row => sums.zipWith (addUnlessZero isZero addProduct) row) initial) := by
  induction rows generalizing initial xs with
  | nil => simp [pure, Except.pure]
  | cons row rows ih =>
    cases xs with
    | nil => rfl
    | cons x xs =>
      have row_width : row.length = width := widths row List.mem_cons_self
      have same : (initial.zipWith (addUnlessZero isZero addProduct)
          (row.map (Prod.mk x))).length = width := by
        simp [row_width, length]
      rw [List.zip_cons_cons, List.foldlM_cons, addInput_eq row_width length]
      exact ih (fun row' member => widths row' (List.mem_cons_of_mem row member)) same xs

/-- Column `o` of the rows with their inputs beside the weights. -/
theorem filterMap_zip_rows (xs : List ξ) {o : Nat} (below : o < width)
    (widths : ∀ row ∈ rows, row.length = width) :
    ((xs.zip rows).map fun p => p.2.map (Prod.mk p.1)).filterMap (fun row => row[o]?) =
      xs.zip (rows.filterMap fun row => row[o]?) := by
  induction rows generalizing xs with
  | nil => simp
  | cons row rows ih =>
    cases xs with
    | nil => rfl
    | cons x xs =>
      have reached : o < row.length := by rwa [widths row List.mem_cons_self]
      have rest := ih xs fun row' member => widths row' (List.mem_cons_of_mem row member)
      rw [filterMap_rows_cons reached, List.zip_cons_cons, List.map_cons,
        filterMap_rows_cons (by simpa using reached), rest]
      simp

end Loop

/-- A consistent layer gives every output the sum over its column. -/
theorem Consistent.sums_eq (consistent : l.Consistent) (isZero : ξ → Bool)
    (addProduct : β → ξ → α → β) {initial : List β} (length : initial.length = l.outputs)
    (xs : List ξ) :
    l.sums isZero addProduct initial xs =
      .ok (initial.mapIdx fun o start => columnSum isZero addProduct start xs (l.column o)) := by
  have widths : ∀ row ∈ l.rows, row.length = l.outputs := fun _ => consistent.length_row
  rw [sums, foldlM_addInput widths length, foldl_zipWith_eq_mapIdx]
  · congr 1
    rw [List.mapIdx_eq_mapIdx_iff]
    intro o below
    rw [filterMap_zip_rows xs (length ▸ below) widths]
    rfl
  · intro row member
    obtain ⟨p, p_member, rfl⟩ := List.mem_map.mp member
    rw [List.length_map, length, widths p.2 (List.of_mem_zip p_member).2]

end FixedPointNet.Layer
