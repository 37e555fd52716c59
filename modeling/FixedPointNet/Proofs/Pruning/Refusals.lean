import FixedPointNet.Proofs.Pruning.Counts

/-!
# What pruning refuses

Pruning makes its checks in order and refuses with the first one that fails: there must be a hidden
layer, then one count per hidden layer, and then each count must leave its layer a neuron. These are
all its refusals. Behind the checks no index reaches past the end of a layer and the rebuilt layers
chain, also for layers that have no neurons to begin with.
-/

namespace FixedPointNet

/-- Layer `k` is the first one that would lose all its neurons. -/
structure FirstEmptied (widths counts : List Nat) (k remove width : Nat) : Prop where
  at_width : widths[k]? = some width
  at_count : counts[k]? = some remove
  empties : width ≤ remove
  kept_before : ∀ j < k, ∀ w c, widths[j]? = some w → counts[j]? = some c → c < w

section Cons

variable {widths counts : List Nat} {w c k remove width : Nat}

theorem not_firstEmptied_nil_left : ¬ FirstEmptied [] counts k remove width :=
  fun first => by simpa using first.at_width

theorem not_firstEmptied_nil_right : ¬ FirstEmptied widths [] k remove width :=
  fun first => by simpa using first.at_count

/-- An emptied layer in front is the first one, whatever follows it. -/
theorem firstEmptied_cons_of_le (empties : w ≤ c) :
    FirstEmptied (w :: widths) (c :: counts) k remove width ↔ k = 0 ∧ remove = c ∧ width = w := by
  refine ⟨fun first => ?_, ?_⟩
  · cases k with
    | zero => simpa [eq_comm] using And.intro first.at_count first.at_width
    | succ k =>
      have kept : c < w := first.kept_before 0 k.succ_pos w c rfl rfl
      omega
  · rintro ⟨rfl, rfl, rfl⟩
    exact ⟨rfl, rfl, empties, by simp⟩

/-- Behind a layer that keeps neurons the first emptied one is that of the rest. -/
theorem firstEmptied_cons_of_lt (kept : c < w) :
    FirstEmptied (w :: widths) (c :: counts) k remove width ↔
      ∃ j, k = j + 1 ∧ FirstEmptied widths counts j remove width := by
  refine ⟨fun first => ?_, ?_⟩
  · cases k with
    | zero =>
      obtain ⟨at_width, at_count, empties, -⟩ := first
      simp at at_width at_count
      omega
    | succ k =>
      refine ⟨k, rfl, first.at_width, first.at_count, first.empties, fun j below => ?_⟩
      exact first.kept_before (j + 1) (Nat.succ_lt_succ below)
  · rintro ⟨k, rfl, first⟩
    refine ⟨first.at_width, first.at_count, first.empties, fun j below => ?_⟩
    cases j with
    | zero => simpa using kept
    | succ j => exact first.kept_before j (Nat.lt_of_succ_lt_succ below)

end Cons

namespace Network

variable {n : Network Parameter} {hidden : List (Layer Parameter)} {counts : List Nat}

/-- The check of the counts fails exactly at the first emptied layer. -/
theorem checkRemovals_eq_error_iff {index : Nat} {cause : Error} :
    checkRemovals index hidden counts = .error cause ↔ ∃ k remove width,
      FirstEmptied (hidden.map Layer.outputs) counts k remove width ∧
        cause = .invalidRemoval (index + k) remove width := by
  induction hidden generalizing index counts with
  | nil => simp [checkRemovals, not_firstEmptied_nil_left]
  | cons l hidden ih =>
    cases counts with
    | nil => simp [checkRemovals, not_firstEmptied_nil_right]
    | cons remove counts =>
      rw [checkRemovals, List.map_cons]
      by_cases empties : l.outputs ≤ remove
      · simp [empties, firstEmptied_cons_of_le, eq_comm]
      · simp only [if_neg empties, ih, firstEmptied_cons_of_lt (Nat.lt_of_not_le empties)]
        refine ⟨?_, ?_⟩
        · rintro ⟨k, remove', width, first, rfl⟩
          exact ⟨k + 1, remove', width, ⟨k, rfl, first⟩, by rw [Nat.add_right_comm, Nat.add_assoc]⟩
        · rintro ⟨_, remove', width, ⟨k, rfl, first⟩, rfl⟩
          exact ⟨k, remove', width, first, by rw [Nat.add_right_comm, Nat.add_assoc]⟩

/-- Why pruning refuses counts: the first of its checks that fails. -/
inductive Refusal (n : Network Parameter) (counts : List Nat) : Error → Prop where
  | tooFewLayers (shallow : n.layers.length < 2) :
      Refusal n counts (.tooFewLayers n.layers.length)
  | hiddenLayerMismatch (deep : 2 ≤ n.layers.length) (mismatch : counts.length ≠ n.hidden.length) :
      Refusal n counts (.hiddenLayerMismatch n.hidden.length counts.length)
  | invalidRemoval (deep : 2 ≤ n.layers.length) (matching : counts.length = n.hidden.length)
      {k remove width : Nat}
      (first : FirstEmptied (n.hidden.map Layer.outputs) counts k remove width) :
      Refusal n counts (.invalidRemoval k remove width)

theorem Refusal.prune_eq {cause : Error} (refusal : n.Refusal counts cause) :
    n.prune counts = .error (.error cause) := by
  cases refusal with
  | tooFewLayers shallow => exact prune_of_shallow shallow
  | hiddenLayerMismatch deep mismatch => exact prune_of_mismatch deep mismatch
  | invalidRemoval deep matching first =>
    apply prune_of_checkRemovals deep matching
    rw [checkRemovals_eq_error_iff]
    exact ⟨_, _, _, first, by rw [Nat.zero_add]⟩

/-- Counts are refused for a reason, or they can be removed. -/
theorem exists_refusal_or_removable (n : Network Parameter) (counts : List Nat) :
    (∃ cause, n.Refusal counts cause) ∨ n.Removable counts := by
  by_cases shallow : n.layers.length < 2
  · exact .inl ⟨_, .tooFewLayers shallow⟩
  have deep : 2 ≤ n.layers.length := Nat.not_lt.mp shallow
  by_cases mismatch : counts.length ≠ n.hidden.length
  · exact .inl ⟨_, .hiddenLayerMismatch deep mismatch⟩
  have matching : counts.length = n.hidden.length := not_not.mp mismatch
  cases checked : checkRemovals 0 n.hidden counts with
  | error cause =>
    obtain ⟨k, remove, width, first, -⟩ := checkRemovals_eq_error_iff.mp checked
    exact .inl ⟨_, .invalidRemoval deep matching first⟩
  | ok _ => exact .inr ⟨deep, (checkRemovals_eq_ok_iff matching.symm).mp checked⟩

/-- Counts can be removed exactly where nothing speaks against them. -/
theorem WellFormed.removable_iff (wellFormed : n.WellFormed) :
    n.Removable counts ↔ ¬ ∃ cause, n.Refusal counts cause := by
  refine ⟨?_, (exists_refusal_or_removable n counts).resolve_left⟩
  rintro removable ⟨cause, refusal⟩
  have refused := refusal.prune_eq
  rw [wellFormed.prune_eq removable] at refused
  cases refused

/-- The rebuilt layers of counts that can be removed are found and accepted. -/
theorem WellFormed.rebuild_eq (wellFormed : n.WellFormed) (removable : n.Removable counts) :
    ∃ layers, pruneLayers (List.range n.inputs) n.layers counts = .ok layers ∧
      ofLayers n.inputs layers = .ok (n.pruned counts) :=
  ⟨_, pruneLayers_eq wellFormed.chained (within_range n.inputs) counts,
    (wellFormed.pruned removable).ofLayers_eq⟩

theorem WellFormed.prune_eq_error_iff (wellFormed : n.WellFormed) {failure : Failure} :
    n.prune counts = .error failure ↔ ∃ cause, n.Refusal counts cause ∧ failure = .error cause := by
  refine ⟨fun refused => ?_, ?_⟩
  · obtain ⟨cause, refusal⟩ | removable := exists_refusal_or_removable n counts
    · rw [refusal.prune_eq, Except.error.injEq] at refused
      exact ⟨cause, refusal, refused.symm⟩
    · rw [wellFormed.prune_eq removable] at refused
      cases refused
  · rintro ⟨cause, refusal, rfl⟩
    exact refusal.prune_eq

/-- Pruning decides every list of counts for every accepted network. It fails exactly with the first
    of its checks that fails, and otherwise rebuilds a network in which each hidden layer has lost
    its count: neither an index of the rebuild nor a check of the rebuilt layers can fail. -/
theorem prune_refuses_or_rebuilds {given : Nat} {literals : List (Layer Parameter)}
    (accepted : ofLayers given literals = .ok n) (counts : List Nat) :
    (∀ failure, n.prune counts = .error failure ↔
      ∃ cause, n.Refusal counts cause ∧ failure = .error cause) ∧
    ((¬ ∃ cause, n.Refusal counts cause) → ∃ layers p,
      pruneLayers (List.range n.inputs) n.layers counts = .ok layers ∧
        ofLayers n.inputs layers = .ok p ∧ n.prune counts = .ok p ∧
        p.widths = n.inputs ::
          (List.zipWith (fun l remove => l.outputs - remove) n.hidden counts ++ [n.outputs])) := by
  have wellFormed : n.WellFormed := wellFormed_of_ofLayers_eq_ok accepted
  refine ⟨fun failure => wellFormed.prune_eq_error_iff, fun unrefused => ?_⟩
  have removable : n.Removable counts := wellFormed.removable_iff.mpr unrefused
  obtain ⟨layers, rebuilt, fits⟩ := wellFormed.rebuild_eq removable
  exact ⟨layers, _, rebuilt, fits, wellFormed.prune_eq removable, removable.widths_pruned⟩

/-- The hidden layer of `small` has three neurons. -/
theorem prune_refuses_or_rebuilds_small :
    ofLayers small.inputs small.layers = .ok small ∧
      small.prune [] = .error (.error (.hiddenLayerMismatch 1 0)) ∧
      small.prune [3] = .error (.error (.invalidRemoval 0 3 3)) ∧
      ∃ p, small.prune [2] = .ok p ∧ p.widths = [2, 1, 1] := by
  have accepted : ofLayers small.inputs small.layers = .ok small := rfl
  have mismatch : small.Refusal [] (.hiddenLayerMismatch 1 0) :=
    .hiddenLayerMismatch (by decide) (by decide)
  have empties : small.Refusal [3] (.invalidRemoval 0 3 3) :=
    .invalidRemoval (by decide) rfl ⟨rfl, rfl, by decide, by simp⟩
  have removable : small.Removable [2] := ⟨by decide, .cons (by decide) .nil⟩
  obtain ⟨layers, p, -, -, pruned, widths⟩ := (prune_refuses_or_rebuilds accepted [2]).2
    (wellFormed_small.removable_iff.mp removable)
  exact ⟨accepted, ((prune_refuses_or_rebuilds accepted []).1 _).mpr ⟨_, mismatch, rfl⟩,
    ((prune_refuses_or_rebuilds accepted [3]).1 _).mpr ⟨_, empties, rfl⟩, p, pruned, widths⟩

end Network

end FixedPointNet
