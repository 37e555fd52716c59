import FixedPointNet.Proofs.Layer.Masked
import FixedPointNet.Proofs.Pruning.Chain

/-!
# Pruning is masking

An engine runs a layer on a list of values. Where the engine selects, that is, where a restricted
layer on kept values returns the kept values of the layer on masked ones, a pruned network returns
what its parent returns when every discarded neuron is overwritten with zero after its layer.
-/

namespace FixedPointNet

variable {α β ξ : Type}

/-- Runs layers one after the other, and masks what leaves each of the first layers to the positions
    listed for it. -/
def maskedPass (zero : ξ) (forward : Layer α → List ξ → Except Fault (List ξ)) :
    List (Layer α) → List (List Nat) → List ξ → Except Fault (List ξ)
  | l :: layers, kept :: masks, xs => do
      maskedPass zero forward layers masks (mask zero kept (← forward l xs))
  | layers, _, xs => layers.foldlM (fun xs l => forward l xs) xs

/-- On masked values, an engine computes for a restricted layer what it computes for the layer. A
    head keeps all outputs; a hidden layer rectifies. -/
structure Selective (zero : ξ) (forward : Layer α → List ξ → Except Fault (List ξ)) : Prop where
  select : ∀ {l : Layer α} {rows columns : List Nat} {xs : List ξ}, l.Consistent →
    Within l.inputs rows → rows.Pairwise (· < ·) → Within l.outputs columns →
    l.activation = .relu ∨ columns = List.range l.outputs →
    xs.length = l.inputs → Masked zero rows xs →
    ∃ ys, forward l xs = .ok ys ∧ ys.length = l.outputs ∧
      forward (l.restriction rows columns) (entries xs rows) = .ok (entries ys columns)

variable {zero : ξ} {forward : Layer α → List ξ → Except Fault (List ξ)}

theorem Selective.comap (selective : Selective zero forward) (f : β → α) :
    Selective zero fun l => forward (l.map f) where
  select := by
    intro l rows columns xs consistent within increasing below activation width masked
    rw [Layer.map_restriction]
    exact selective.select (consistent.map f) within increasing below activation width masked

theorem maskedPass_nil (layers : List (Layer α)) (xs : List ξ) :
    maskedPass zero forward layers [] xs = layers.foldlM (fun xs l => forward l xs) xs := by
  cases layers <;> rfl

theorem maskedPass_map (f : β → α) (layers : List (Layer β)) (masks : List (List Nat))
    (xs : List ξ) :
    maskedPass zero forward (layers.map (Layer.map f)) masks xs =
      maskedPass zero (fun l => forward (l.map f)) layers masks xs := by
  induction layers generalizing masks xs with
  | nil => cases masks <;> rfl
  | cons l layers ih =>
    cases masks with
    | nil => rw [maskedPass_nil, maskedPass_nil, List.foldlM_map]
    | cons kept masks =>
      rw [List.map_cons, maskedPass, maskedPass]
      simp only [ih]

namespace Network

variable {width : Nat} {layers : List (Layer Parameter)} {inputs counts : List Nat}
  {forward : Layer Parameter → List ξ → Except Fault (List ξ)}

/-- A chain of layers and its pruned chain run in step: what the pruned chain works on are the kept
    values of the masked pass. -/
theorem maskedPass_prunedLayers (selective : Selective zero forward)
    (chained : Chained width layers) (settled : assignActivations layers = layers)
    (one_per_layer : layers.length = counts.length + 1) (within : Within width inputs)
    (increasing : inputs.Pairwise (· < ·)) {xs : List ξ} (length : xs.length = width)
    (masked : Masked zero inputs xs) :
    ∃ ys, maskedPass zero forward layers (keptAlong inputs layers counts).tail xs = .ok ys ∧
      (prunedLayers inputs layers counts).foldlM (fun xs l => forward l xs) (entries xs inputs) =
        .ok ys := by
  induction layers generalizing width inputs counts xs with
  | nil => simp at one_per_layer
  | cons l layers ih =>
    obtain _ | ⟨rfl, consistent, chained⟩ := chained
    obtain ⟨own, rest⟩ := List.cons.inj settled
    cases counts with
    | nil =>
      obtain rfl : layers = [] := List.eq_nil_of_length_eq_zero (Nat.succ_inj.mp one_per_layer)
      obtain ⟨ys, whole, count, part⟩ := selective.select consistent within increasing
        (within_range l.outputs) (.inr rfl) length masked
      rw [entries_range_of_length count] at part
      refine ⟨ys, ?_, ?_⟩
      · show maskedPass zero forward [l] [] xs = .ok ys
        rw [maskedPass_nil, List.foldlM_cons, whole]
        rfl
      · rw [prunedLayers, List.foldlM_cons, part]
        rfl
    | cons remove counts =>
      have one_per_layer' : layers.length = counts.length + 1 := Nat.succ_inj.mp one_per_layer
      have hidden : layers.isEmpty = false := by
        rw [List.isEmpty_eq_false_iff]
        exact List.ne_nil_of_length_eq_add_one one_per_layer'
      have rectifies : l.activation = .relu := by
        rw [← congrArg Layer.activation own, hidden]
        rfl
      obtain ⟨ys, whole, count, part⟩ := selective.select consistent within increasing
        (Layer.within_keptOutputs l inputs remove) (.inl rectifies) length masked
      -- the mask turns the discarded outputs to zero, which is what the next layer needs
      obtain ⟨zs, rest_whole, rest_part⟩ := ih chained rest one_per_layer'
        (Layer.within_keptOutputs l inputs remove) (Layer.keptAmong_pairwise _ _ _)
        ((length_mask _ _ ys).trans count) (masked_mask zero (l.keptOutputs inputs remove) ys)
      rw [entries_mask] at rest_part
      refine ⟨zs, ?_, ?_⟩
      · rw [keptAlong, List.tail_cons, keptAlong_eq_cons, maskedPass, whole]
        exact rest_whole
      · rw [prunedLayers, List.foldlM_cons, part]
        exact rest_part

/-- One sample through a pruned network is one sample through its parent with the discarded neurons
    overwritten. -/
theorem WellFormed.foldlM_pruned {n : Network Parameter} (wellFormed : n.WellFormed)
    (selective : Selective zero forward) (removable : n.Removable counts) {xs : List ξ}
    (width : xs.length = n.inputs) :
    ∃ ys, maskedPass zero forward n.layers (n.kept counts).tail xs = .ok ys ∧
      (n.pruned counts).layers.foldlM (fun xs l => forward l xs) xs = .ok ys := by
  have masked : Masked zero (List.range n.inputs) xs := width ▸ masked_range zero xs
  obtain ⟨ys, whole, part⟩ := maskedPass_prunedLayers selective wellFormed.chained
    wellFormed.activations removable.length_eq.symm (within_range n.inputs)
    List.pairwise_lt_range width masked
  rw [entries_range_of_length width] at part
  exact ⟨ys, whole, part⟩

end Network

end FixedPointNet
