import FixedPointNet.Proofs.Pruning.Chain

/-!
# Pruning in stages

Pruning a network twice is pruning it once by the sums of the counts, when the second removal begins
at the layer where the first one ends or later. In front of that layer the second pruning changes
nothing; behind it the first pruning has changed nothing but the inputs of one layer; and in the
layer itself removing some neurons and then some of the rest keeps what removing all of them at once
keeps.
-/

namespace FixedPointNet.Network

/-- The first counts end at some layer and the second ones begin at it or later. -/
def Staged (first second : List Nat) : Prop :=
  ∃ j : Nat, (∀ k c : Nat, j < k → first[k]? = some c → c = 0) ∧
    ∀ k c : Nat, k < j → second[k]? = some c → c = 0

variable {n m p : Network Parameter} {width : Nat} {layers : List (Layer Parameter)}
  {inputs first second : List Nat}

/-- With one hidden layer, any two removals are staged. -/
theorem Staged.singleton (removed more : Nat) : Staged [removed] [more] := by
  refine ⟨0, ?_, fun k c below => absurd below (Nat.not_lt_zero k)⟩
  intro k c past at_k
  rw [List.getElem?_eq_none (show [removed].length ≤ k from past)] at at_k
  cases at_k

theorem Staged.cons {removed more : Nat} (staged : Staged (removed :: first) (more :: second)) :
    ((∀ c ∈ first, c = 0) ∨ more = 0 ∧ Staged first second) := by
  obtain ⟨j, ended, begun⟩ := staged
  cases j with
  | zero =>
    refine .inl fun c member => ?_
    obtain ⟨k, at_k⟩ := List.mem_iff_getElem?.mp member
    exact ended (k + 1) c (Nat.succ_pos k) at_k
  | succ j =>
    refine .inr ⟨begun 0 more (Nat.succ_pos j) rfl, j, ?_, ?_⟩
    · intro k c j_lt at_k
      exact ended (k + 1) c (Nat.succ_lt_succ j_lt) at_k
    · intro k c k_lt at_k
      exact begun (k + 1) c (Nat.succ_lt_succ k_lt) at_k

theorem zipWith_add_zero (lengths : first.length = second.length) (nothing : ∀ c ∈ first, c = 0) :
    List.zipWith (· + ·) first second = second := by
  induction first generalizing second with
  | nil => cases second <;> simp at lengths ⊢
  | cons removed first ih =>
    cases second with
    | nil => simp at lengths
    | cons more second =>
      obtain ⟨rfl, rest⟩ := List.forall_mem_cons.mp nothing
      rw [List.zipWith_cons_cons, ih (Nat.succ_inj.mp lengths) rest, Nat.zero_add]

/-- Behind the layer where the first removal ends, only the inputs of one layer are restricted, and
    a second restriction of them composes with the first. -/
theorem Chained.prunedLayers_prunedLayers_zero (chained : Chained width layers)
    (within : Within width inputs) {inputs' : List Nat} (within' : Within inputs.length inputs')
    (lengths : first.length = second.length) (nothing : ∀ c ∈ first, c = 0) :
    Network.prunedLayers inputs' (Network.prunedLayers inputs layers first) second =
      Network.prunedLayers (entries inputs inputs') layers second := by
  cases layers with
  | nil => cases first <;> cases second <;> rfl
  | cons l layers =>
    obtain _ | ⟨rfl, consistent, chained⟩ := chained
    have all := within_range l.outputs
    cases first with
    | nil =>
      obtain rfl : second = [] := List.eq_nil_of_length_eq_zero lengths.symm
      have composed := consistent.restriction_restriction within all within' (within_range _)
      rw [entries_range, List.length_range] at composed
      rw [Network.prunedLayers, Network.prunedLayers, Network.prunedLayers,
        Layer.outputs_restriction, List.length_range, composed]
    | cons removed first =>
      cases second with
      | nil => simp at lengths
      | cons more second =>
        obtain ⟨rfl, rest⟩ := List.forall_mem_cons.mp nothing
        have kept_within : Within l.outputs (l.keptOutputs (entries inputs inputs') more) :=
          Layer.within_keptOutputs l _ more
        have composed := consistent.restriction_restriction within all within'
          (by simpa using kept_within)
        rw [entries_of_range kept_within] at composed
        rw [Network.prunedLayers, Layer.keptOutputs_zero, chained.prunedLayers_zero rest,
          Network.prunedLayers, Network.prunedLayers,
          consistent.keptOutputs_restriction within, composed]

/-- Restricting the chain twice, in stages, is restricting it once by the sums of the counts. -/
theorem Chained.prunedLayers_prunedLayers (chained : Chained width layers)
    (within : Within width inputs) (lengths : first.length = second.length)
    (staged : Staged first second) :
    Network.prunedLayers (List.range inputs.length) (Network.prunedLayers inputs layers first)
        second =
      Network.prunedLayers inputs layers (List.zipWith (· + ·) first second) := by
  induction layers generalizing width inputs first second with
  | nil => cases first <;> cases second <;> rfl
  | cons l layers ih =>
    obtain _ | ⟨rfl, consistent, chained⟩ := chained
    cases first with
    | nil =>
      obtain rfl : second = [] := List.eq_nil_of_length_eq_zero lengths.symm
      have unchanged := (consistent.restriction within (within_range l.outputs)).restriction_all
      rw [Layer.inputs_restriction] at unchanged
      rw [List.zipWith_nil_left, Network.prunedLayers, Network.prunedLayers, unchanged]
    | cons removed first =>
      cases second with
      | nil => simp at lengths
      | cons more second =>
        have lengths' : first.length = second.length := Nat.succ_inj.mp lengths
        have kept_within := Layer.within_keptOutputs l inputs removed
        have kept_twice := consistent.entries_keptOutputs within removed more
        have kept_within' := Layer.within_keptOutputs
          (l.restriction inputs (l.keptOutputs inputs removed)) (List.range inputs.length) more
        have layer := consistent.restriction_restriction within kept_within
          (within_range inputs.length) kept_within'
        rw [entries_range, kept_twice] at layer
        rw [List.zipWith_cons_cons, Network.prunedLayers, Network.prunedLayers,
          Network.prunedLayers, layer]
        congr 1
        -- the first removal ends with this layer, or the second one has not begun in it
        rcases staged.cons with nothing | ⟨rfl, staged_rest⟩
        · rw [chained.prunedLayers_prunedLayers_zero kept_within kept_within' lengths' nothing,
            kept_twice, zipWith_add_zero lengths' nothing]
        · rw [Layer.keptOutputs_zero, Layer.outputs_restriction, Nat.add_zero,
            ih chained kept_within lengths' staged_rest]

/-- A second removal fits the rest of the first one when the sums fit the whole. -/
theorem forall₂_prunedLayers_iff (inputs : List Nat) (length : layers.length = first.length + 1)
    (lengths : first.length = second.length) :
    List.Forall₂ (fun l remove => remove < l.outputs)
        (prunedLayers inputs layers first).dropLast second ↔
      List.Forall₂ (fun l remove => remove < l.outputs) layers.dropLast
        (List.zipWith (· + ·) first second) := by
  induction layers generalizing inputs first second with
  | nil => simp at length
  | cons l layers ih =>
    cases first with
    | nil =>
      obtain rfl : second = [] := List.eq_nil_of_length_eq_zero lengths.symm
      obtain rfl : layers = [] := List.eq_nil_of_length_eq_zero (Nat.succ_inj.mp length)
      simp [prunedLayers]
    | cons removed first =>
      cases second with
      | nil => simp at lengths
      | cons more second =>
        have length' : layers.length = first.length + 1 := Nat.succ_inj.mp length
        have more_layers : layers ≠ [] := List.ne_nil_of_length_eq_add_one length'
        have more_pruned : prunedLayers (l.keptOutputs inputs removed) layers first ≠ [] := by
          apply List.ne_nil_of_length_eq_add_one
          rw [length_prunedLayers, length']
        have fits : more < (l.keptOutputs inputs removed).length ↔ removed + more < l.outputs := by
          rw [Layer.keptOutputs, Layer.length_keptAmong]
          omega
        rw [prunedLayers, List.dropLast_cons_of_ne_nil more_pruned,
          List.dropLast_cons_of_ne_nil more_layers, List.zipWith_cons_cons, List.forall₂_cons,
          List.forall₂_cons, ih _ length' (Nat.succ_inj.mp lengths), Layer.outputs_restriction,
          fits]

theorem Removable.pruned_iff (removable : n.Removable first)
    (one_per_layer : second.length = n.hidden.length) :
    (n.pruned first).Removable second ↔ n.Removable (List.zipWith (· + ·) first second) := by
  have length := removable.length_eq
  have lengths : first.length = second.length := by
    rw [one_per_layer, removable.below.length_eq]
  have fits := forall₂_prunedLayers_iff (List.range n.inputs) length.symm lengths
  constructor
  · intro again
    exact ⟨removable.hidden, fits.mp again.below⟩
  · intro once
    refine ⟨?_, fits.mpr once.below⟩
    rw [pruned, length_prunedLayers]
    exact removable.hidden

/-- Once a first pruning has succeeded, a second one in stages returns what one pruning by the sums
    returns. -/
theorem WellFormed.prune_iff_of_staged (wellFormed : n.WellFormed) (staged : Staged first second)
    (one_per_layer : second.length = n.hidden.length) (ok : n.prune first = .ok m) :
    m.prune second = .ok p ↔ n.prune (List.zipWith (· + ·) first second) = .ok p := by
  obtain ⟨removable, rfl⟩ := wellFormed.prune_eq_ok_iff.mp ok
  have lengths : first.length = second.length := by
    rw [one_per_layer, removable.below.length_eq]
  have composed := wellFormed.chained.prunedLayers_prunedLayers (within_range n.inputs)
    lengths staged
  rw [List.length_range] at composed
  have same : (n.pruned first).pruned second = n.pruned (List.zipWith (· + ·) first second) := by
    rw [Network.pruned, Network.pruned, Network.pruned, composed]
  rw [(wellFormed.pruned removable).prune_eq_ok_iff, wellFormed.prune_eq_ok_iff,
    removable.pruned_iff one_per_layer, same]

theorem Removable.of_add {x y : Nat} (one_hidden : n.hidden.length = 1)
    (removable : n.Removable [x + y]) : n.Removable [x] := by
  obtain ⟨l, hidden⟩ := List.length_eq_one_iff.mp one_hidden
  have below := removable.below
  refine ⟨removable.hidden, ?_⟩
  rw [hidden, List.forall₂_cons] at below ⊢
  exact ⟨Nat.lt_of_le_of_lt (Nat.le_add_right x y) below.1, below.2⟩

/-- Pruning in stages is pruning at once, on an accepted network: after a first pruning a second one
    succeeds with the same result as one pruning by the sums. With one hidden layer, any two
    removals are staged. -/
theorem prune_prune {given : Nat} {literals : List (Layer Parameter)}
    (accepted : ofLayers given literals = .ok n) :
    (∀ first second m, Staged first second → second.length = n.hidden.length →
      n.prune first = .ok m →
      ∀ p, m.prune second = .ok p ↔ n.prune (List.zipWith (· + ·) first second) = .ok p) ∧
    (n.hidden.length = 1 → ∀ x y p,
      (∃ m, n.prune [x] = .ok m ∧ m.prune [y] = .ok p) ↔ n.prune [x + y] = .ok p) := by
  have wellFormed : n.WellFormed := wellFormed_of_ofLayers_eq_ok accepted
  constructor
  · intro first second m staged one_per_layer ok p
    exact wellFormed.prune_iff_of_staged staged one_per_layer ok
  · intro one_hidden x y p
    have stages : ∀ m, n.prune [x] = .ok m → (m.prune [y] = .ok p ↔ n.prune [x + y] = .ok p) :=
      fun m ok => wellFormed.prune_iff_of_staged (.singleton x y) one_hidden.symm ok
    constructor
    · rintro ⟨m, first_ok, second_ok⟩
      exact (stages m first_ok).mp second_ok
    · intro once
      have removable : n.Removable [x + y] := (wellFormed.prune_eq_ok_iff.mp once).1
      have first_ok := wellFormed.prune_eq (removable.of_add one_hidden)
      exact ⟨_, first_ok, (stages _ first_ok).mpr once⟩

theorem prune_prune_small :
    ofLayers small.inputs small.layers = .ok small ∧ ∃ m, small.prune [1] = .ok m ∧
      ∀ p, m.prune [1] = .ok p ↔ small.prune [2] = .ok p := by
  have accepted : ofLayers small.inputs small.layers = .ok small := rfl
  have removable : small.Removable [1] := ⟨by decide, .cons (by decide) .nil⟩
  have first_ok := (wellFormed_of_ofLayers_eq_ok accepted).prune_eq removable
  obtain ⟨stages, -⟩ := prune_prune accepted
  exact ⟨accepted, _, first_ok, stages [1] [1] _ (.singleton 1 1) rfl first_ok⟩

end FixedPointNet.Network
