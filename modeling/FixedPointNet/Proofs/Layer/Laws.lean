import FixedPointNet.Proofs.Layer.Restriction

/-!
# The laws of restriction

Restricting a layer is an algebra of index lists. A restricted layer has the weights and biases that
the layer has at the kept indices, inputs and outputs may be restricted in either order, and to
restrict twice is to restrict once to the indices that the second list picks from the first. The
lists may name indices in any order and more than once; all that is asked of them is that the
indices exist.
-/

namespace FixedPointNet.Layer

variable {α : Type} {l q : Layer α} {rows columns : List Nat}

theorem weight_eq_ok_iff {i o : Nat} {w : α} : l.weight i o = .ok w ↔ l.weight? i o = some w := by
  unfold weight
  cases l.weight? i o <;> simp

/-- Reading a weight of a restriction is reading the weight between the kept indices. -/
theorem RestrictedTo.exists_weight (restricted : l.RestrictedTo rows columns q) {i r o c : Nat}
    (at_i : rows[i]? = some r) (at_o : columns[o]? = some c) :
    ∃ w, q.weight i o = .ok w ∧ l.weight r c = .ok w := by
  simp only [weight_eq_ok_iff]
  exact restricted.weight i r o c at_i at_o

/-- Layer `q` is layer `l` with the inputs `rows` and all outputs. -/
structure KeepsInputs (l : Layer α) (rows : List Nat) (q : Layer α) : Prop where
  inputs : q.inputs = rows.length
  outputs : q.outputs = l.outputs
  consistent : q.Consistent
  activation : q.activation = l.activation
  bias : q.bias = l.bias
  weight : ∀ i r o, rows[i]? = some r → o < l.outputs →
    ∃ w, q.weight i o = .ok w ∧ l.weight r o = .ok w

/-- Layer `q` is layer `l` with all inputs and the outputs `columns`. -/
structure KeepsOutputs (l : Layer α) (columns : List Nat) (q : Layer α) : Prop where
  inputs : q.inputs = l.inputs
  outputs : q.outputs = columns.length
  consistent : q.Consistent
  activation : q.activation = l.activation
  bias : ∀ o c : Nat, columns[o]? = some c → ∃ b, q.bias[o]? = some b ∧ l.bias[c]? = some b
  weight : ∀ i o c, i < l.inputs → columns[o]? = some c →
    ∃ w, q.weight i o = .ok w ∧ l.weight i c = .ok w

/-- The laws of restriction to the inputs `rows` and the outputs `columns` of a layer. -/
structure RestrictionLaws (l : Layer α) (rows columns : List Nat) : Prop where
  inputs : ∃ q, l.restrictInputs rows = .ok q ∧ l.KeepsInputs rows q
  outputs : ∃ q, l.restrictOutputs columns = .ok q ∧ l.KeepsOutputs columns q
  /-- The order of the two restrictions does not matter. -/
  commute : ∃ q, (l.restrictInputs rows >>= fun p => p.restrictOutputs columns) = .ok q ∧
    (l.restrictOutputs columns >>= fun p => p.restrictInputs rows) = .ok q ∧
    l.RestrictedTo rows columns q
  /-- A second restriction picks from the indices of the first. -/
  inputs_twice : ∀ rows', Within rows.length rows' → ∃ picked q, pick rows rows' = .ok picked ∧
    (l.restrictInputs rows >>= fun p => p.restrictInputs rows') = .ok q ∧
    l.restrictInputs picked = .ok q
  outputs_twice : ∀ columns', Within columns.length columns' → ∃ picked q,
    pick columns columns' = .ok picked ∧
    (l.restrictOutputs columns >>= fun p => p.restrictOutputs columns') = .ok q ∧
    l.restrictOutputs picked = .ok q

namespace Consistent

theorem keepsInputs (consistent : l.Consistent) (within : Within l.inputs rows) :
    l.KeepsInputs rows (l.restriction rows (List.range l.outputs)) where
  inputs := rfl
  outputs := List.length_range
  consistent := consistent.restriction within (within_range l.outputs)
  activation := rfl
  bias := consistent.entries_bias_range
  weight := by
    intro i r o at_i below
    have restricted := consistent.restrictedTo within (within_range l.outputs)
    exact restricted.exists_weight at_i (List.getElem?_range below)

theorem keepsOutputs (consistent : l.Consistent) (within : Within l.outputs columns) :
    l.KeepsOutputs columns (l.restriction (List.range l.inputs) columns) where
  inputs := List.length_range
  outputs := rfl
  consistent := consistent.restriction (within_range l.inputs) within
  activation := rfl
  bias := (consistent.restrictedTo (within_range l.inputs) within).bias
  weight := by
    intro i o c below at_o
    have restricted := consistent.restrictedTo (within_range l.inputs) within
    exact restricted.exists_weight (List.getElem?_range below) at_o

/-- Restricting the inputs of a restriction selects from its inputs. -/
theorem restrictInputs_restriction (consistent : l.Consistent) (rows_within : Within l.inputs rows)
    (columns_within : Within l.outputs columns) {rows' : List Nat}
    (within : Within rows.length rows') :
    (l.restriction rows columns).restrictInputs rows' =
      .ok (l.restriction (entries rows rows') columns) := by
  have restricted := consistent.restriction rows_within columns_within
  rw [restricted.restrictInputs_eq within, outputs_restriction,
    consistent.restriction_restriction rows_within columns_within within (within_range _),
    entries_range]

/-- Restricting the outputs of a restriction selects from its outputs. -/
theorem restrictOutputs_restriction (consistent : l.Consistent)
    (rows_within : Within l.inputs rows) (columns_within : Within l.outputs columns)
    {columns' : List Nat} (within : Within columns.length columns') :
    (l.restriction rows columns).restrictOutputs columns' =
      .ok (l.restriction rows (entries columns columns')) := by
  have restricted := consistent.restriction rows_within columns_within
  rw [restricted.restrictOutputs_eq within, inputs_restriction,
    consistent.restriction_restriction rows_within columns_within (within_range _) within,
    entries_range]

/-- A consistent layer obeys the laws of restriction for all lists of indices that it has. -/
theorem restrictionLaws (consistent : l.Consistent) (rows_within : Within l.inputs rows)
    (columns_within : Within l.outputs columns) : l.RestrictionLaws rows columns where
  inputs := ⟨_, consistent.restrictInputs_eq rows_within, consistent.keepsInputs rows_within⟩
  outputs := ⟨_, consistent.restrictOutputs_eq columns_within,
    consistent.keepsOutputs columns_within⟩
  commute := by
    refine ⟨l.restriction rows columns, ?_, ?_, consistent.restrictedTo rows_within columns_within⟩
    · rw [consistent.restrictInputs_eq rows_within]
      have within : Within (List.range l.outputs).length columns := by
        rwa [List.length_range]
      have second := consistent.restrictOutputs_restriction rows_within (within_range l.outputs)
        within
      rwa [entries_of_range columns_within] at second
    · rw [consistent.restrictOutputs_eq columns_within]
      have within : Within (List.range l.inputs).length rows := by
        rwa [List.length_range]
      have second := consistent.restrictInputs_restriction (within_range l.inputs) columns_within
        within
      rwa [entries_of_range rows_within] at second
  inputs_twice := by
    intro rows' within
    refine ⟨entries rows rows', _, pick_eq within, ?_,
      consistent.restrictInputs_eq (rows_within.entries rows')⟩
    rw [consistent.restrictInputs_eq rows_within]
    exact consistent.restrictInputs_restriction rows_within (within_range l.outputs) within
  outputs_twice := by
    intro columns' within
    refine ⟨entries columns columns', _, pick_eq within, ?_,
      consistent.restrictOutputs_eq (columns_within.entries columns')⟩
    rw [consistent.restrictOutputs_eq columns_within]
    exact consistent.restrictOutputs_restriction (within_range l.inputs) columns_within within

end Consistent

/-- A layer of two inputs and three outputs. The digits of a weight are its input and its output. -/
def numbered : Layer Nat :=
  ⟨2, 3, [11, 12, 13, 21, 22, 23], [1, 2, 3], .relu⟩

theorem restrictionLaws_repeating :
    numbered.Consistent ∧ Within 2 [1, 0, 1] ∧ Within 3 [2, 0, 2, 1] ∧
      numbered.RestrictionLaws [1, 0, 1] [2, 0, 2, 1] ∧
      (numbered.restrictOutputs [2, 0, 2, 1] >>= fun p => p.restrictInputs [1, 0, 1]) =
        .ok ⟨3, 4, [23, 21, 23, 22, 13, 11, 13, 12, 23, 21, 23, 22], [3, 1, 3, 2], .relu⟩ := by
  have consistent : numbered.Consistent := ⟨rfl, rfl⟩
  have rows : Within 2 [1, 0, 1] := by simp [Within]
  have columns : Within 3 [2, 0, 2, 1] := by simp [Within]
  have laws : numbered.RestrictionLaws [1, 0, 1] [2, 0, 2, 1] :=
    Consistent.restrictionLaws consistent rows columns
  obtain ⟨q, inputs_first, outputs_first, -⟩ := laws.commute
  refine ⟨consistent, rows, columns, laws, ?_⟩
  rw [outputs_first, ← inputs_first]
  rfl

end FixedPointNet.Layer
