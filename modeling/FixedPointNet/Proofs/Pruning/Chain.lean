import FixedPointNet.Proofs.Network.Accepted
import FixedPointNet.Proofs.Pruning.Importance
import FixedPointNet.Pruning.Basic

/-!
# What pruning returns

Pruning a well-formed network succeeds exactly on removable counts, and returns the chain of
restrictions `Network.pruned`: every hidden layer is restricted to the inputs that the layer before
keeps and to the outputs that it keeps itself, and the head to the last kept outputs.
`prune_chained` says what that means value by value.
-/

namespace FixedPointNet

/-- The outputs that a layer keeps when its importances are measured on `rows`: all but the given
    number, and every discarded output is removed before every kept one. -/
structure Layer.Keeps (l : Layer Parameter) (rows : List Nat) (remove : Nat) (columns : List Nat) :
    Prop where
  increasing : columns.Pairwise (· < ·)
  within : Within l.outputs columns
  length : columns.length = l.outputs - remove
  discarded_before : ∀ a < l.outputs, a ∉ columns → ∀ o ∈ columns,
    Layer.RemovedBefore (l.importanceOn rows) a o

theorem Layer.keeps_keptOutputs (l : Layer Parameter) (rows : List Nat) (remove : Nat) :
    l.Keeps rows remove (l.keptOutputs rows remove) where
  increasing := Layer.keptAmong_pairwise _ _ _
  within := Layer.within_keptOutputs l rows remove
  length := Layer.length_keptAmong _ _ _
  discarded_before := fun _ below discarded _ member =>
    Layer.removedBefore_of_not_mem_keptAmong below discarded member

namespace Network

/-- Counts that pruning accepts: there is a hidden layer, and every hidden layer has one count,
    below its width. -/
structure Removable (n : Network Parameter) (counts : List Nat) : Prop where
  hidden : 2 ≤ n.layers.length
  below : List.Forall₂ (fun l remove => remove < l.outputs) n.hidden counts

/-- The kept inputs of each layer that has a count, and of the one after them. -/
def keptAlong (inputs : List Nat) : List (Layer Parameter) → List Nat → List (List Nat)
  | l :: layers, remove :: counts =>
      inputs :: keptAlong (l.keptOutputs inputs remove) layers counts
  | _, _ => [inputs]

/-- The kept inputs of every layer: all inputs of the network, then what each hidden layer keeps. -/
def kept (n : Network Parameter) (counts : List Nat) : List (List Nat) :=
  keptAlong (List.range n.inputs) n.layers counts

/-- The layers restricted to what is kept. The first layer without a count keeps its outputs. -/
def prunedLayers (inputs : List Nat) :
    List (Layer Parameter) → List Nat → List (Layer Parameter)
  | l :: layers, remove :: counts =>
      l.restriction inputs (l.keptOutputs inputs remove) ::
        prunedLayers (l.keptOutputs inputs remove) layers counts
  | head :: layers, [] => head.restriction inputs (List.range head.outputs) :: layers
  | [], _ => []

/-- The network restricted to what is kept. -/
def pruned (n : Network Parameter) (counts : List Nat) : Network Parameter :=
  ⟨n.inputs, prunedLayers (List.range n.inputs) n.layers counts⟩

variable {n p : Network Parameter} {width : Nat} {layers : List (Layer Parameter)}
  {inputs counts : List Nat}

theorem pruneLayers_eq (chained : Chained width layers) (within : Within width inputs)
    (counts : List Nat) :
    pruneLayers inputs layers counts = .ok (prunedLayers inputs layers counts) := by
  induction layers generalizing width inputs counts with
  | nil => cases counts <;> rfl
  | cons l layers ih =>
    obtain _ | ⟨rfl, consistent, chained⟩ := chained
    have restricted := consistent.restrictInputs_eq within
    cases counts with
    | nil =>
      rw [pruneLayers, restricted]
      rfl
    | cons remove counts =>
      have kept_within := Layer.within_keptOutputs l inputs remove
      rw [pruneLayers, restricted]
      simp only [bind, Except.bind, consistent.removeLeast_eq within,
        ih chained kept_within counts]
      rfl

theorem Chained.prunedLayers (chained : Chained width layers) (within : Within width inputs)
    (counts : List Nat) :
    Chained inputs.length (prunedLayers inputs layers counts) := by
  induction layers generalizing width inputs counts with
  | nil => cases counts <;> exact .nil _
  | cons l layers ih =>
    obtain _ | ⟨rfl, consistent, chained⟩ := chained
    cases counts with
    | nil =>
      refine .cons rfl (consistent.restriction within (within_range l.outputs)) ?_
      simpa using chained
    | cons remove counts =>
      have kept_within := Layer.within_keptOutputs l inputs remove
      exact .cons rfl (consistent.restriction within kept_within) (ih chained kept_within counts)

/-- A restricted layer has no more weights than before, so that they can still be counted. -/
theorem Chained.countable_prunedLayers (chained : Chained width layers)
    (fewer : inputs.length ≤ width)
    (countable : ∀ l ∈ layers, l.inputs * l.outputs < countLimit) (counts : List Nat) :
    ∀ l ∈ Network.prunedLayers inputs layers counts, l.inputs * l.outputs < countLimit := by
  induction layers generalizing width inputs counts with
  | nil => cases counts <;> exact fun l absent => nomatch absent
  | cons l layers ih =>
    obtain _ | ⟨rfl, _, chained⟩ := chained
    obtain ⟨first, countable⟩ := List.forall_mem_cons.mp countable
    cases counts with
    | nil =>
      rw [Network.prunedLayers, List.forall_mem_cons]
      refine ⟨?_, countable⟩
      simpa [Layer.restriction] using (Nat.mul_le_mul_right l.outputs fewer).trans_lt first
    | cons remove counts =>
      have kept : (l.keptOutputs inputs remove).length ≤ l.outputs := by
        rw [Layer.keptOutputs, Layer.length_keptAmong]
        exact Nat.sub_le _ _
      rw [Network.prunedLayers, List.forall_mem_cons]
      exact ⟨(Nat.mul_le_mul fewer kept).trans_lt first, ih chained kept countable counts⟩

@[simp] theorem length_prunedLayers (inputs : List Nat) (layers : List (Layer Parameter))
    (counts : List Nat) : (prunedLayers inputs layers counts).length = layers.length := by
  induction layers generalizing inputs counts with
  | nil => cases counts <;> rfl
  | cons l layers ih => cases counts <;> simp [Network.prunedLayers, ih]

/-- The restricted layers have the activations of their places: hidden layers rectify at any width,
    and the head keeps its width. -/
theorem assignActivations_prunedLayers (settled : assignActivations layers = layers)
    (fewer : counts.length < layers.length) :
    assignActivations (prunedLayers inputs layers counts) = prunedLayers inputs layers counts := by
  induction layers generalizing inputs counts with
  | nil => simp at fewer
  | cons l layers ih =>
    obtain ⟨own, rest⟩ := List.cons.inj settled
    have activation : Activation.forPosition layers.isEmpty l.outputs = l.activation :=
      congrArg Layer.activation own
    cases counts with
    | nil =>
      rw [Network.prunedLayers, assignActivations, rest]
      simp [Layer.restriction, activation]
    | cons remove counts =>
      have fewer' : counts.length < layers.length := Nat.lt_of_succ_lt_succ fewer
      have hidden : layers.isEmpty = false := by
        cases layers with
        | nil => simp at fewer'
        | cons => rfl
      have hidden' :
          (prunedLayers (l.keptOutputs inputs remove) layers counts).isEmpty = false := by
        rw [List.isEmpty_eq_false_iff, ← List.length_pos_iff, length_prunedLayers]
        omega
      -- a layer with a count is hidden, and rectifies whatever its width has become
      rw [hidden] at activation
      rw [Network.prunedLayers, assignActivations, ih rest fewer', hidden']
      simp only [Activation.forPosition] at activation ⊢
      simp [Layer.restriction, ← activation]

theorem checkRemovals_eq_ok_iff {index : Nat} (lengths : layers.length = counts.length) :
    checkRemovals index layers counts = .ok () ↔
      List.Forall₂ (fun l remove => remove < l.outputs) layers counts := by
  induction layers generalizing index counts with
  | nil =>
    obtain rfl : counts = [] := List.eq_nil_of_length_eq_zero lengths.symm
    simp [checkRemovals]
  | cons l layers ih =>
    cases counts with
    | nil => simp at lengths
    | cons remove counts =>
      rw [checkRemovals, List.forall₂_cons]
      by_cases empties : l.outputs ≤ remove
      · simp [empties]
      · rw [if_neg empties, ih (Nat.succ_inj.mp lengths)]
        simp [Nat.lt_of_not_le empties]

theorem Removable.length_eq (removable : n.Removable counts) :
    counts.length + 1 = n.layers.length := by
  have lengths := removable.below.length_eq
  rw [Network.hidden, List.length_dropLast] at lengths
  have := removable.hidden
  omega

theorem WellFormed.pruned (wellFormed : n.WellFormed) (removable : n.Removable counts) :
    (n.pruned counts).WellFormed where
  layers_ne_nil := by
    have length := removable.length_eq
    rw [← List.length_pos_iff, Network.pruned, length_prunedLayers]
    omega
  chained := by
    have chained := wellFormed.chained.prunedLayers (within_range n.inputs) counts
    rwa [List.length_range] at chained
  countable := wellFormed.chained.countable_prunedLayers (List.length_range.le)
    wellFormed.countable counts
  activations := by
    have length := removable.length_eq
    exact assignActivations_prunedLayers wellFormed.activations (by omega)

theorem WellFormed.prune_eq (wellFormed : n.WellFormed) (removable : n.Removable counts) :
    n.prune counts = .ok (n.pruned counts) := by
  have accepted : ofLayers n.inputs (n.pruned counts).layers = .ok (n.pruned counts) :=
    (wellFormed.pruned removable).ofLayers_eq
  have passed : checkRemovals 0 n.hidden counts = .ok () :=
    (checkRemovals_eq_ok_iff removable.below.length_eq).mpr removable.below
  have restricted : pruneLayers (List.range n.inputs) n.layers counts =
      .ok (n.pruned counts).layers :=
    pruneLayers_eq wellFormed.chained (within_range n.inputs) counts
  have deep : ¬ n.layers.length < 2 := Nat.not_lt.mpr removable.hidden
  have matching : counts.length = n.hidden.length := removable.below.length_eq.symm
  rw [ofLayers] at accepted
  rw [prune, pruneOn, if_neg deep, if_neg (not_not.mpr matching), passed, restricted]
  simp only [bind, Except.bind, liftM, monadLift, MonadLift.monadLift, Except.mapError, accepted]

/-- What becomes of an accepted network under pruning does not depend on the build. -/
theorem WellFormed.pruneOn_eq (wellFormed : n.WellFormed) (overflow : Overflow)
    (counts : List Nat) : n.pruneOn overflow counts = n.prune counts := by
  have restricted := pruneLayers_eq wellFormed.chained (within_range n.inputs) counts
  have countable := wellFormed.chained.countable_prunedLayers List.length_range.le
    wellFormed.countable counts
  have rebuilt := ofLayersOn_eq_of_countable countable overflow n.inputs
  rw [ofLayers] at rebuilt
  rw [prune, pruneOn, pruneOn, restricted]
  simp only [liftM, monadLift, MonadLift.monadLift, Except.mapError, bind, Except.bind, rebuilt]

theorem prune_of_shallow (shallow : n.layers.length < 2) :
    n.prune counts = .error (.error (.tooFewLayers n.layers.length)) := by
  rw [prune, pruneOn, if_pos shallow]
  rfl

theorem prune_of_mismatch (deep : 2 ≤ n.layers.length) (mismatch : counts.length ≠ n.hidden.length) :
    n.prune counts = .error (.error (.hiddenLayerMismatch n.hidden.length counts.length)) := by
  rw [prune, pruneOn, if_neg (Nat.not_lt.mpr deep), if_pos mismatch]
  rfl

theorem prune_of_checkRemovals (deep : 2 ≤ n.layers.length)
    (matching : counts.length = n.hidden.length) {cause : Error}
    (refused : checkRemovals 0 n.hidden counts = .error cause) :
    n.prune counts = .error (.error cause) := by
  rw [prune, pruneOn, if_neg (Nat.not_lt.mpr deep), if_neg (not_not.mpr matching), refused]
  rfl

theorem removable_of_prune_eq_ok (ok : n.prune counts = .ok p) : n.Removable counts := by
  by_cases shallow : n.layers.length < 2
  · rw [prune_of_shallow shallow] at ok
    cases ok
  have deep : 2 ≤ n.layers.length := Nat.not_lt.mp shallow
  by_cases mismatch : counts.length ≠ n.hidden.length
  · rw [prune_of_mismatch deep mismatch] at ok
    cases ok
  have matching : counts.length = n.hidden.length := not_not.mp mismatch
  cases checked : checkRemovals 0 n.hidden counts with
  | error cause =>
    rw [prune_of_checkRemovals deep matching checked] at ok
    cases ok
  | ok _ => exact ⟨deep, (checkRemovals_eq_ok_iff matching.symm).mp checked⟩

/-- Pruning a well-formed network succeeds exactly on removable counts. -/
theorem WellFormed.prune_eq_ok_iff (wellFormed : n.WellFormed) :
    n.prune counts = .ok p ↔ n.Removable counts ∧ p = n.pruned counts := by
  constructor
  · intro ok
    have removable := removable_of_prune_eq_ok ok
    rw [wellFormed.prune_eq removable, Except.ok.injEq] at ok
    exact ⟨removable, ok.symm⟩
  · rintro ⟨removable, rfl⟩
    exact wellFormed.prune_eq removable

theorem keptAlong_eq_cons (inputs : List Nat) (layers : List (Layer Parameter))
    (counts : List Nat) :
    keptAlong inputs layers counts = inputs :: (keptAlong inputs layers counts).tail := by
  cases layers <;> cases counts <;> rfl

theorem getElem?_keptAlong_zero (inputs : List Nat) (layers : List (Layer Parameter))
    (counts : List Nat) : (keptAlong inputs layers counts)[0]? = some inputs := by
  rw [keptAlong_eq_cons, List.getElem?_cons_zero]

theorem length_keptAlong (fewer : counts.length ≤ layers.length) :
    (keptAlong inputs layers counts).length = counts.length + 1 := by
  induction layers generalizing inputs counts with
  | nil =>
    obtain rfl : counts = [] := List.eq_nil_of_length_eq_zero (Nat.le_zero.mp fewer)
    rfl
  | cons l layers ih =>
    cases counts with
    | nil => rfl
    | cons remove counts =>
      rw [keptAlong, List.length_cons, ih (Nat.le_of_succ_le_succ fewer), List.length_cons]

/-- A layer with a count is restricted to what stands before and after it in the chain. -/
theorem getElem?_prunedLayers (chained : Chained width layers) (within : Within width inputs)
    {k remove : Nat} {l : Layer Parameter} (at_k : layers[k]? = some l)
    (count : counts[k]? = some remove) :
    ∃ rows, (keptAlong inputs layers counts)[k]? = some rows ∧
      (keptAlong inputs layers counts)[k + 1]? = some (l.keptOutputs rows remove) ∧
      (prunedLayers inputs layers counts)[k]? =
        some (l.restriction rows (l.keptOutputs rows remove)) ∧
      l.Consistent ∧ Within l.inputs rows := by
  induction layers generalizing width inputs counts k with
  | nil => simp at at_k
  | cons first layers ih =>
    obtain _ | ⟨rfl, consistent, chained⟩ := chained
    cases counts with
    | nil => simp at count
    | cons removed counts =>
      cases k with
      | zero =>
        obtain rfl : first = l := by simpa using at_k
        obtain rfl : removed = remove := by simpa using count
        exact ⟨inputs, rfl, getElem?_keptAlong_zero _ layers counts, rfl, consistent, within⟩
      | succ k => exact ih chained (Layer.within_keptOutputs first inputs removed) at_k count

/-- The layer after the last count is restricted in its inputs only. -/
theorem getElem?_prunedLayers_length (chained : Chained width layers)
    (within : Within width inputs) {head : Layer Parameter}
    (at_end : layers[counts.length]? = some head) :
    ∃ rows, (keptAlong inputs layers counts)[counts.length]? = some rows ∧
      (prunedLayers inputs layers counts)[counts.length]? =
        some (head.restriction rows (List.range head.outputs)) ∧
      head.Consistent ∧ Within head.inputs rows := by
  induction layers generalizing width inputs counts with
  | nil => simp at at_end
  | cons first layers ih =>
    obtain _ | ⟨rfl, consistent, chained⟩ := chained
    cases counts with
    | nil =>
      obtain rfl : first = head := by simpa using at_end
      exact ⟨inputs, rfl, rfl, consistent, within⟩
    | cons remove counts =>
      exact ih chained (Layer.within_keptOutputs first inputs remove) at_end

theorem Chained.prunedLayers_zero (chained : Chained width layers) (nothing : ∀ c ∈ counts, c = 0) :
    Network.prunedLayers (List.range width) layers counts = layers := by
  induction layers generalizing width counts with
  | nil => cases counts <;> rfl
  | cons l layers ih =>
    obtain _ | ⟨rfl, consistent, chained⟩ := chained
    cases counts with
    | nil => rw [Network.prunedLayers, consistent.restriction_all]
    | cons remove counts =>
      obtain ⟨rfl, rest⟩ := List.forall_mem_cons.mp nothing
      rw [Network.prunedLayers, Layer.keptOutputs_zero, consistent.restriction_all,
        ih chained rest]

/-- Network `p` is the chain of restrictions of network `n` to the kept inputs of its layers. -/
structure ChainedPruning (n : Network Parameter) (counts : List Nat) (kept : List (List Nat))
    (p : Network Parameter) : Prop where
  inputs : p.inputs = n.inputs
  outputs : p.outputs = n.outputs
  layers : p.layers.length = n.layers.length
  one_list_per_layer : kept.length = n.layers.length
  all_inputs : kept[0]? = some (List.range n.inputs)
  hidden : ∀ k l remove, n.layers[k]? = some l → counts[k]? = some remove →
    ∃ rows columns q, kept[k]? = some rows ∧ kept[k + 1]? = some columns ∧
      p.layers[k]? = some q ∧ l.Keeps rows remove columns ∧ l.RestrictedTo rows columns q
  head : ∀ l, n.layers.getLast? = some l →
    ∃ rows q, kept.getLast? = some rows ∧ p.layers.getLast? = some q ∧
      l.RestrictedTo rows (List.range l.outputs) q ∧ q.bias = l.bias

theorem WellFormed.chainedPruning (wellFormed : n.WellFormed) (removable : n.Removable counts) :
    n.ChainedPruning counts (n.kept counts) (n.pruned counts) := by
  have length := removable.length_eq
  have all : Within n.inputs (List.range n.inputs) := within_range n.inputs
  obtain ⟨head, at_end⟩ : ∃ head, n.layers[counts.length]? = some head :=
    ⟨_, List.getElem?_eq_getElem (by omega)⟩
  obtain ⟨rows, at_rows, at_pruned, consistent, within⟩ :=
    getElem?_prunedLayers_length wellFormed.chained all at_end
  have parent_head : n.layers.getLast? = some head := by
    rw [List.getLast?_eq_getElem?, ← length]
    exact at_end
  have pruned_head : (n.pruned counts).layers.getLast? =
      some (head.restriction rows (List.range head.outputs)) := by
    rw [List.getLast?_eq_getElem?, Network.pruned, length_prunedLayers, ← length]
    exact at_pruned
  have kept_length : (n.kept counts).length = counts.length + 1 := length_keptAlong (by omega)
  refine ⟨rfl, ?_, length_prunedLayers _ _ _, by omega, getElem?_keptAlong_zero _ _ _, ?_, ?_⟩
  · simp [outputs, parent_head, pruned_head]
  · intro k l remove at_k count
    obtain ⟨rows, before, after, at_q, consistent, within⟩ :=
      getElem?_prunedLayers wellFormed.chained all at_k count
    exact ⟨rows, _, _, before, after, at_q, l.keeps_keptOutputs rows remove,
      consistent.restrictedTo within (Layer.within_keptOutputs l rows remove)⟩
  · intro l last
    obtain rfl : head = l := by simpa [parent_head] using last
    refine ⟨rows, _, ?_, pruned_head,
      consistent.restrictedTo within (within_range head.outputs), ?_⟩
    · rw [List.getLast?_eq_getElem?, kept_length]
      exact at_rows
    · exact consistent.entries_bias_range

/-- Pruning an accepted network by removable counts succeeds, and the result is the network's chain
    of restrictions, with every parameter copied word for word. Removing nothing returns the
    network itself. -/
theorem prune_chained {given : Nat} {literals : List (Layer Parameter)}
    (accepted : ofLayers given literals = .ok n) (removable : n.Removable counts) :
    ∃ p, n.prune counts = .ok p ∧ n.ChainedPruning counts (n.kept counts) p ∧
      ((∀ c ∈ counts, c = 0) → p = n) := by
  have wellFormed : n.WellFormed := wellFormed_of_ofLayers_eq_ok accepted
  refine ⟨n.pruned counts, wellFormed.prune_eq removable, wellFormed.chainedPruning removable, ?_⟩
  intro nothing
  rw [pruned, wellFormed.chained.prunedLayers_zero nothing]

/-- Of two neurons with equal importance the earlier one is removed; one whose importance is not a
    number stays. -/
theorem prune_chained_small :
    ofLayers small.inputs small.layers = .ok small ∧ small.Removable [1] ∧
      ∃ p, small.prune [1] = .ok p ∧ small.ChainedPruning [1] [[0, 1], [1, 2]] p := by
  have accepted : ofLayers small.inputs small.layers = .ok small := rfl
  have removable : small.Removable [1] := ⟨by decide, .cons (by decide) .nil⟩
  have kept : small.kept [1] = [[0, 1], [1, 2]] := by decide +kernel
  obtain ⟨p, ok, chained, -⟩ := prune_chained accepted removable
  rw [kept] at chained
  exact ⟨accepted, removable, p, ok, chained⟩

end Network

end FixedPointNet
