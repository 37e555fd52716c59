import FixedPointNet.Proofs.Layer.Columns
import FixedPointNet.Proofs.Layer.Restriction

/-!
# Masked inputs

Overwriting inputs of a layer with zero has the same effect as leaving them out: a sum passes over
inputs that count as zero, so a layer on masked inputs computes, at the outputs that are kept, the
sums of its restriction on the inputs that are kept. The additions are the same ones in the same
order, and nothing is asked of the addition itself.
-/

namespace FixedPointNet

variable {α β ξ : Type}

/-- The list with `zero` at every position that is not kept. -/
def mask (zero : ξ) (kept : List Nat) (xs : List ξ) : List ξ :=
  xs.mapIdx fun i x => if i ∈ kept then x else zero

/-- There is `zero` at every position that is not kept. -/
def Masked (zero : ξ) (kept : List Nat) (xs : List ξ) : Prop :=
  ∀ (i : Nat) x, xs[i]? = some x → i ∉ kept → x = zero

@[simp] theorem length_mask (zero : ξ) (kept : List Nat) (xs : List ξ) :
    (mask zero kept xs).length = xs.length :=
  List.length_mapIdx

theorem masked_mask (zero : ξ) (kept : List Nat) (xs : List ξ) :
    Masked zero kept (mask zero kept xs) := by
  intro i x at_i discarded
  rw [mask, List.getElem?_mapIdx] at at_i
  obtain ⟨y, -, same⟩ := Option.map_eq_some_iff.mp at_i
  rw [if_neg discarded] at same
  exact same.symm

theorem entries_mask (zero : ξ) (kept : List Nat) (xs : List ξ) :
    entries (mask zero kept xs) kept = entries xs kept := by
  apply List.filterMap_congr
  intro i member
  simp [mask, member]

theorem masked_range (zero : ξ) (xs : List ξ) : Masked zero (List.range xs.length) xs := by
  intro i x at_i discarded
  have below : i < xs.length := (List.getElem?_eq_some_iff.mp at_i).1
  exact absurd (List.mem_range.mpr below) discarded

namespace Layer

variable {l : Layer α} {isZero : ξ → Bool} {addProduct : β → ξ → α → β}
  {inputs outputs : List Nat} {xs : List ξ}

/-- A sum adds the products of the inputs that do not count as zero. -/
theorem columnSum_eq_foldl_filter (start : β) (xs : List ξ) (weights : List α) :
    columnSum isZero addProduct start xs weights =
      ((xs.zip weights).filter fun p => !isZero p.1).foldl
        (fun sum p => addProduct sum p.1 p.2) start := by
  rw [List.foldl_filter, columnSum]
  congr 1
  funext sum p
  by_cases zero : isZero p.1
  · simp [addUnlessZero, zero]
  · simp [addUnlessZero, zero]

/-- Leaving out masked inputs does not change a sum. -/
theorem columnSum_entries {zero : ξ} (is_zero : isZero zero = true) {weights : List α}
    (same_length : weights.length = xs.length) (increasing : inputs.Pairwise (· < ·))
    (within : Within xs.length inputs) (masked : Masked zero inputs xs) (start : β) :
    columnSum isZero addProduct start (entries xs inputs) (entries weights inputs) =
      columnSum isZero addProduct start xs weights := by
  have zipped : (entries xs inputs).zip (entries weights inputs) =
      entries (xs.zip weights) inputs :=
    zipWith_entries Prod.mk within (by rwa [same_length])
  have others : ∀ (i : Nat) (p : ξ × α), (xs.zip weights)[i]? = some p → i ∉ inputs →
      (!isZero p.1) = false := by
    intro i p at_i discarded
    obtain ⟨at_x, -⟩ := List.getElem?_zip_eq_some.mp at_i
    rw [masked i p.1 at_x discarded, is_zero]
    rfl
  rw [columnSum_eq_foldl_filter, columnSum_eq_foldl_filter, zipped,
    filter_entries increasing (by simpa [same_length] using within) others]

/-- A column of a restriction has the kept entries of the column. -/
theorem Consistent.column_restriction (consistent : l.Consistent) (rows : Within l.inputs inputs)
    (columns : Within l.outputs outputs) {o c : Nat} (at_o : outputs[o]? = some c) :
    (l.restriction inputs outputs).column o = entries (l.column c) inputs := by
  have below : c < l.outputs := columns c (List.mem_of_getElem? at_o)
  have below' : o < (l.restriction inputs outputs).outputs :=
    (List.getElem?_eq_some_iff.mp at_o).1
  rw [(consistent.restriction rows columns).column_eq below', inputs_restriction,
    consistent.filterMap_weight?_restriction rows columns at_o, entries_range, entries]
  exact List.filterMap_congr fun i _ => (consistent.getElem?_column below i).symm

/-- The sums of a restriction on the kept inputs are the kept sums of the layer on masked inputs. -/
theorem Consistent.sums_restriction (consistent : l.Consistent) (isZero : ξ → Bool)
    (addProduct : β → ξ → α → β) {zero : ξ} (is_zero : isZero zero = true)
    (rows : Within l.inputs inputs) (increasing : inputs.Pairwise (· < ·))
    (columns : Within l.outputs outputs) {initial : List β} (length : initial.length = l.outputs)
    (width : xs.length = l.inputs) (masked : Masked zero inputs xs) :
    ∃ sums, l.sums isZero addProduct initial xs = .ok sums ∧ sums.length = l.outputs ∧
      (l.restriction inputs outputs).sums isZero addProduct (entries initial outputs)
        (entries xs inputs) = .ok (entries sums outputs) := by
  have restricted := consistent.restriction rows columns
  have kept_length : (entries initial outputs).length = outputs.length :=
    length_entries (by rwa [length])
  refine ⟨_, consistent.sums_eq isZero addProduct length xs, by simp [length], ?_⟩
  rw [restricted.sums_eq isZero addProduct kept_length]
  congr 1
  apply List.ext_getElem?
  intro o
  rw [List.getElem?_mapIdx, getElem?_entries (by rwa [length]),
    getElem?_entries (by rwa [List.length_mapIdx, length])]
  cases at_o : outputs[o]? with
  | none => rfl
  | some c =>
    have below : c < l.outputs := columns c (List.mem_of_getElem? at_o)
    have weights : (l.column c).length = xs.length := by
      rw [consistent.length_column below, width]
    obtain ⟨start, at_c⟩ : ∃ start, initial[c]? = some start :=
      ⟨_, List.getElem?_eq_getElem (by rwa [length])⟩
    rw [Option.bind_some, Option.bind_some, List.getElem?_mapIdx, at_c, Option.map_some,
      Option.map_some, consistent.column_restriction rows columns at_o,
      columnSum_entries is_zero weights increasing (by rwa [width]) masked]

end Layer

end FixedPointNet
