import FixedPointNet.Proofs.Network.Sizes
import FixedPointNet.Proofs.Pruning.Counts

/-!
# Pruning shrinks

A network with more neurons removed is nowhere larger: not in its units, not in its parameters and
not in its stored form. Already one further neuron makes it smaller in all of them but perhaps the
multipliers: a neuron has a bias, and with it an adder and a register, even where it has no weights.
-/

namespace FixedPointNet.Network

/-- Network `p` takes no more units of any kind, parameters or bytes than network `q`. -/
structure NoLarger (p q : Network Parameter) : Prop where
  cost : p.cost ≤ q.cost
  parameters : p.parameterCount ≤ q.parameterCount
  bytes : p.toBytes.length ≤ q.toBytes.length

/-- Network `p` takes fewer adders, registers, parameters and bytes than network `q`. -/
structure Smaller (p q : Network Parameter) : Prop where
  adders : p.cost.adders < q.cost.adders
  registers : p.cost.registers < q.cost.registers
  parameters : p.parameterCount < q.parameterCount
  bytes : p.toBytes.length < q.toBytes.length

variable {n : Network Parameter} {a b counts : List Nat}

/-- The stored forms of two prunings differ in their numbers of parameters only. -/
theorem WellFormed.length_toBytes_pruned (wellFormed : n.WellFormed)
    (removable : n.Removable counts) :
    (n.pruned counts).toBytes.length =
      16 + 36 * n.layers.length + 4 * (n.pruned counts).cost.adders := by
  have pruned := wellFormed.pruned removable
  rw [pruned.length_toBytes, byteCount_eq, pruned.adders_cost, Network.pruned,
    length_prunedLayers]

theorem WellFormed.parameterCount_pruned (wellFormed : n.WellFormed)
    (removable : n.Removable counts) :
    (n.pruned counts).parameterCount = (n.pruned counts).cost.adders :=
  (wellFormed.pruned removable).adders_cost.symm

theorem WellFormed.noLarger_pruned (wellFormed : n.WellFormed) (removable_a : n.Removable a)
    (removable_b : n.Removable b) (le : List.Forall₂ (· ≤ ·) a b) :
    (n.pruned b).NoLarger (n.pruned a) where
  cost := removable_a.cost_pruned_le removable_b le
  parameters := by
    rw [wellFormed.parameterCount_pruned removable_a, wellFormed.parameterCount_pruned removable_b]
    exact (removable_a.cost_pruned_le removable_b le).2.1
  bytes := by
    have adders := (removable_a.cost_pruned_le removable_b le).2.1
    rw [wellFormed.length_toBytes_pruned removable_a, wellFormed.length_toBytes_pruned removable_b]
    omega

theorem WellFormed.smaller_pruned (wellFormed : n.WellFormed) (removable_a : n.Removable a)
    (removable_b : n.Removable b) (le : List.Forall₂ (· ≤ ·) a b) (differ : a ≠ b) :
    (n.pruned b).Smaller (n.pruned a) := by
  -- both totals tell the counts apart, so neither can be reached again once a neuron is lost
  have adders : (n.pruned b).cost.adders < (n.pruned a).cost.adders :=
    Nat.lt_of_not_le fun many => differ (removable_a.eq_of_adders_le removable_b le many)
  have registers : (n.pruned b).cost.registers < (n.pruned a).cost.registers :=
    Nat.lt_of_not_le fun many => differ (removable_a.eq_of_registers_le removable_b le many)
  refine ⟨adders, registers, ?_, ?_⟩
  · rwa [wellFormed.parameterCount_pruned removable_a,
      wellFormed.parameterCount_pruned removable_b]
  · rw [wellFormed.length_toBytes_pruned removable_a, wellFormed.length_toBytes_pruned removable_b]
    omega

/-- Where something can be removed, nothing can be removed as well. -/
theorem Removable.nothing (removable : n.Removable counts) :
    n.Removable (counts.map fun _ => 0) := by
  refine ⟨removable.hidden, ?_⟩
  rw [List.forall₂_map_right_iff]
  exact removable.below.imp fun _ _ below => Nat.zero_lt_of_lt below

theorem WellFormed.pruned_nothing (wellFormed : n.WellFormed) (counts : List Nat) :
    n.pruned (counts.map fun _ => 0) = n := by
  have nothing : ∀ c ∈ counts.map fun _ => 0, c = 0 := by simp
  rw [Network.pruned, wellFormed.chained.prunedLayers_zero nothing]

/-- Removing a neuron makes a network smaller. -/
theorem WellFormed.smaller_pruned_self (wellFormed : n.WellFormed) (removable : n.Removable counts)
    (something : ∃ c ∈ counts, 0 < c) : (n.pruned counts).Smaller n := by
  obtain ⟨c, member, positive⟩ := something
  have le : List.Forall₂ (· ≤ ·) (counts.map fun _ => 0) counts := by
    rw [List.forall₂_map_left_iff, List.forall₂_same]
    exact fun c _ => c.zero_le
  have differ : (counts.map fun _ => 0) ≠ counts := by
    intro same
    rw [← same] at member
    simp at member
    omega
  have smaller := wellFormed.smaller_pruned removable.nothing removable le differ
  rwa [wellFormed.pruned_nothing] at smaller

/-- Of two prunings of an accepted network, the one that removes at least as much from every hidden
    layer is nowhere larger. If it removes more anywhere it is smaller, so that equal registers mean
    equal removals. Every removal makes the network itself smaller. -/
theorem prune_shrinks {given : Nat} {literals : List (Layer Parameter)}
    (accepted : ofLayers given literals = .ok n) :
    (∀ a b, n.Removable a → n.Removable b → List.Forall₂ (· ≤ ·) a b →
      ∃ p q, n.prune a = .ok p ∧ n.prune b = .ok q ∧ q.NoLarger p ∧ (a ≠ b → q.Smaller p) ∧
        (p.cost.registers = q.cost.registers → a = b)) ∧
    ∀ counts, n.Removable counts → (∃ c ∈ counts, 0 < c) →
      ∃ p, n.prune counts = .ok p ∧ p.Smaller n := by
  have wellFormed : n.WellFormed := wellFormed_of_ofLayers_eq_ok accepted
  constructor
  · intro a b removable_a removable_b le
    exact ⟨n.pruned a, n.pruned b, wellFormed.prune_eq removable_a, wellFormed.prune_eq removable_b,
      wellFormed.noLarger_pruned removable_a removable_b le,
      wellFormed.smaller_pruned removable_a removable_b le,
      fun registers => removable_a.eq_of_registers_le removable_b le registers.le⟩
  · intro counts removable something
    exact ⟨n.pruned counts, wellFormed.prune_eq removable,
      wellFormed.smaller_pruned_self removable something⟩

theorem prune_shrinks_small :
    ofLayers small.inputs small.layers = .ok small ∧ small.Removable [1] ∧ small.Removable [2] ∧
      ∃ p q, small.prune [1] = .ok p ∧ small.prune [2] = .ok q ∧ q.Smaller p ∧ p.Smaller small := by
  have accepted : ofLayers small.inputs small.layers = .ok small := rfl
  have one : small.Removable [1] := ⟨by decide, .cons (by decide) .nil⟩
  have two : small.Removable [2] := ⟨by decide, .cons (by decide) .nil⟩
  obtain ⟨pairs, self⟩ := prune_shrinks accepted
  obtain ⟨p, q, at_one, at_two, -, smaller, -⟩ :=
    pairs [1] [2] one two (.cons one_le_two .nil)
  obtain ⟨p', at_one', less⟩ := self [1] one ⟨1, by simp⟩
  obtain rfl : p = p' := by simpa [at_one] using at_one'
  exact ⟨accepted, one, two, p, q, at_one, at_two, smaller (by decide), less⟩

end FixedPointNet.Network
