import FixedPointNet.Proofs.Layer.Restriction
import FixedPointNet.Pruning.Ranking

/-!
# The neurons that a ranking keeps

The ranking of importances lists every neuron once, in the strict order of importance and then of
position. Dropping its first entries therefore keeps exactly the neurons that enough others are
removed before: `keptAmong` says so without a sort. Removing neurons in two stages keeps the same
ones as removing them at once.
-/

namespace FixedPointNet.Layer

/-- Neuron `a` is removed before neuron `b`: it is less important in the total order of floats, or
    as important and earlier. -/
def RemovedBefore (importance : Nat → Float32) (a b : Nat) : Prop :=
  Binary32.orderKey (importance a) < Binary32.orderKey (importance b) ∨
    Binary32.orderKey (importance a) = Binary32.orderKey (importance b) ∧ a < b

instance (importance : Nat → Float32) : DecidableRel (RemovedBefore importance) :=
  fun _ _ => inferInstanceAs (Decidable (_ ∨ _ ∧ _))

/-- Of the neurons below a width, those that at least `remove` others are removed before, in
    ascending order. -/
def keptAmong (importance : Nat → Float32) (width remove : Nat) : List Nat :=
  (List.range width).filter fun o =>
    remove ≤ (List.range width).countP fun a => RemovedBefore importance a o

/-- Position `a` has the smaller key, or the same key and comes earlier. -/
def KeyBefore (key : Nat → Int) (a b : Nat) : Prop :=
  key a < key b ∨ key a = key b ∧ a < b

instance (key : Nat → Int) : DecidableRel (KeyBefore key) :=
  fun _ _ => inferInstanceAs (Decidable (_ ∨ _ ∧ _))

theorem KeyBefore.asymm {key : Nat → Int} {a b : Nat} (before : KeyBefore key a b) :
    ¬ KeyBefore key b a := by
  unfold KeyBefore at *
  omega

section Order

variable {importance : Nat → Float32} {a b c : Nat}

theorem not_removedBefore_self (a : Nat) : ¬ RemovedBefore importance a a := by
  unfold RemovedBefore
  omega

theorem RemovedBefore.asymm (before : RemovedBefore importance a b) :
    ¬ RemovedBefore importance b a := by
  have by_key : KeyBefore (fun i => Binary32.orderKey (importance i)) a b := before
  exact by_key.asymm

/-- In a list in the order of removal, the entries past the first `remove` are those that at least
    `remove` others come before. -/
theorem mem_drop_iff {ranked : List Nat} (sorted : ranked.Pairwise (RemovedBefore importance))
    (remove o : Nat) :
    o ∈ ranked.drop remove ↔
      o ∈ ranked ∧ remove ≤ ranked.countP fun a => RemovedBefore importance a o := by
  induction ranked generalizing remove with
  | nil => simp
  | cons first ranked ih =>
    obtain ⟨first_before, sorted⟩ := List.pairwise_cons.mp sorted
    cases remove with
    | zero => simp
    | succ remove =>
      rw [List.drop_succ_cons, ih sorted, List.countP_cons, List.mem_cons]
      constructor
      · rintro ⟨member, enough⟩
        have counted : decide (RemovedBefore importance first o) = true :=
          decide_eq_true (first_before o member)
        rw [counted]
        exact ⟨.inr member, Nat.succ_le_succ enough⟩
      · rintro ⟨rfl | member, enough⟩
        · -- nothing comes before the first entry, so it cannot be past the first `remove + 1`
          have none_before : ranked.countP (fun a => RemovedBefore importance a o) = 0 := by
            rw [List.countP_eq_zero]
            intro a member before
            exact (first_before a member).asymm (of_decide_eq_true before)
          rw [none_before, decide_eq_false (not_removedBefore_self o)] at enough
          simp at enough
        · have counted : decide (RemovedBefore importance first o) = true :=
            decide_eq_true (first_before o member)
          rw [counted] at enough
          exact ⟨member, Nat.le_of_succ_le_succ enough⟩

end Order

section Keys

variable {α : Type}

/-- The positions of a list in the order of their keys; equal keys leave them in place. -/
def positionsByKey (key : α → Int) (xs : List α) : List Nat :=
  (xs.zipIdx.mergeSort fun a b => key a.1 ≤ key b.1).map Prod.snd

theorem positionsByKey_perm (key : α → Int) (xs : List α) :
    (positionsByKey key xs).Perm (List.range xs.length) := by
  have positions : xs.zipIdx.map Prod.snd = List.range xs.length := by
    rw [List.zipIdx_map_snd, List.range_eq_range']
  rw [← positions]
  exact (List.mergeSort_perm xs.zipIdx _).map Prod.snd

/-- The comparison that the positions are sorted by. -/
def keyLE (key : α → Int) (a b : α × Nat) : Bool :=
  key a.1 ≤ key b.1

theorem keyLE_trans (key : α → Int) (a b c : α × Nat) (ab : keyLE key a b) (bc : keyLE key b c) :
    keyLE key a c := by
  simp only [keyLE, decide_eq_true_eq] at *
  omega

theorem keyLE_total (key : α → Int) (a b : α × Nat) : keyLE key a b || keyLE key b a := by
  simp only [keyLE, Bool.or_eq_true, decide_eq_true_eq]
  omega

theorem zipIdx_pairwise_lt (xs : List α) : xs.zipIdx.Pairwise fun a b => a.2 < b.2 := by
  have positions : (xs.zipIdx.map Prod.snd).Pairwise (· < ·) := by
    rw [List.zipIdx_map_snd]
    exact List.pairwise_lt_range'
  exact List.pairwise_map.mp positions

/-- Sorting leaves entries with equal keys in the order of their positions. -/
theorem mergeSort_equal_keys (key : α → Int) (xs : List α) :
    (xs.zipIdx.mergeSort (keyLE key)).Pairwise fun a b => key a.1 = key b.1 → a.2 < b.2 := by
  rw [List.pairwise_iff_forall_sublist]
  intro a b pair same
  -- the entries with this key are a sorted sublist, so they come out as they went in
  let alike : α × Nat → Bool := fun x => key x.1 = key a.1
  have group_sorted : (xs.zipIdx.filter alike).Pairwise (keyLE key · ·) := by
    apply List.pairwise_of_forall_mem_list
    intro x x_member y y_member
    have x_alike := of_decide_eq_true (List.mem_filter.mp x_member).2
    have y_alike := of_decide_eq_true (List.mem_filter.mp y_member).2
    simp only [keyLE, decide_eq_true_eq]
    omega
  have into : (xs.zipIdx.filter alike).Sublist
      ((xs.zipIdx.mergeSort (keyLE key)).filter alike) := by
    have sub := List.sublist_mergeSort (keyLE_trans key) (keyLE_total key) group_sorted
      List.filter_sublist
    simpa [List.filter_filter] using sub.filter alike
  have group_eq := into.eq_of_length
    ((List.mergeSort_perm xs.zipIdx (keyLE key)).filter alike).length_eq.symm
  have pair_in_group : [a, b].Sublist (xs.zipIdx.filter alike) := by
    rw [group_eq]
    simpa [alike, same] using pair.filter alike
  have in_order := (zipIdx_pairwise_lt xs).filter alike
  exact List.pairwise_iff_forall_sublist.mp in_order pair_in_group

theorem positionsByKey_pairwise (key : α → Int) (xs : List α) (d : α) :
    (positionsByKey key xs).Pairwise (KeyBefore fun i => key (xs.getD i d)) := by
  have by_key : (xs.zipIdx.mergeSort (keyLE key)).Pairwise (keyLE key · ·) :=
    List.pairwise_mergeSort (keyLE_trans key) (keyLE_total key) xs.zipIdx
  have entry : ∀ x ∈ xs.zipIdx.mergeSort (keyLE key), xs.getD x.2 d = x.1 := by
    intro x member
    rw [List.mem_mergeSort, List.mem_zipIdx_iff_getElem?] at member
    rw [List.getD_eq_getElem?_getD, member, Option.getD_some]
  rw [positionsByKey, List.pairwise_map]
  refine (by_key.and (mergeSort_equal_keys key xs)).imp_of_mem ?_
  rintro a b a_member b_member ⟨le, equal_in_order⟩
  rw [KeyBefore, entry a a_member, entry b b_member]
  rcases Int.lt_or_eq_of_le (of_decide_eq_true le) with less | same
  · exact .inl less
  · exact .inr ⟨same, equal_in_order same⟩

end Keys

theorem ranking_perm (importances : List Float32) :
    (ranking importances).Perm (List.range importances.length) :=
  positionsByKey_perm Binary32.orderKey importances

/-- A ranking is in the order of removal. -/
theorem ranking_pairwise (importances : List Float32) :
    (ranking importances).Pairwise (RemovedBefore fun i => importances.getD i 0) :=
  positionsByKey_pairwise Binary32.orderKey importances 0

section Kept

variable {importance : Nat → Float32} {width remove : Nat}

theorem mem_keptAmong {o : Nat} : o ∈ keptAmong importance width remove ↔
    o < width ∧ remove ≤ (List.range width).countP fun a => RemovedBefore importance a o := by
  simp [keptAmong]

theorem keptAmong_pairwise (importance : Nat → Float32) (width remove : Nat) :
    (keptAmong importance width remove).Pairwise (· < ·) :=
  List.pairwise_lt_range.filter _

theorem within_keptAmong (importance : Nat → Float32) (width remove : Nat) :
    Within width (keptAmong importance width remove) :=
  fun _ member => (mem_keptAmong.mp member).1

@[simp] theorem keptAmong_zero (importance : Nat → Float32) (width : Nat) :
    keptAmong importance width 0 = List.range width := by
  simp [keptAmong]

/-- A larger removal keeps no other neurons. -/
theorem keptAmong_subset {more : Nat} (le : remove ≤ more) :
    keptAmong importance width more ⊆ keptAmong importance width remove := by
  intro o member
  obtain ⟨below, enough⟩ := mem_keptAmong.mp member
  exact mem_keptAmong.mpr ⟨below, le.trans enough⟩

theorem keptAmong_congr {importance' : Nat → Float32}
    (same : ∀ o < width, importance o = importance' o) :
    keptAmong importance width remove = keptAmong importance' width remove := by
  have before : ∀ o < width, ∀ a < width,
      RemovedBefore importance a o ↔ RemovedBefore importance' a o := by
    intro o o_lt a a_lt
    rw [RemovedBefore, RemovedBefore, same o o_lt, same a a_lt]
  apply List.filter_congr
  intro o o_member
  have counts : (List.range width).countP (fun a => RemovedBefore importance a o) =
      (List.range width).countP (fun a => RemovedBefore importance' a o) := by
    apply List.countP_congr
    intro a a_member
    simpa using before o (List.mem_range.mp o_member) a (List.mem_range.mp a_member)
  rw [counts]

theorem ranking_map_perm (importance : Nat → Float32) (width : Nat) :
    (ranking ((List.range width).map importance)).Perm (List.range width) := by
  simpa using ranking_perm ((List.range width).map importance)

theorem ranking_map_pairwise (importance : Nat → Float32) (width : Nat) :
    (ranking ((List.range width).map importance)).Pairwise (RemovedBefore importance) := by
  have entry : ∀ o ∈ ranking ((List.range width).map importance),
      ((List.range width).map importance).getD o 0 = importance o := by
    intro o member
    have below : o < width := List.mem_range.mp ((ranking_map_perm importance width).subset member)
    simp [List.getD_eq_getElem?_getD, List.getElem?_range below]
  refine (ranking_pairwise ((List.range width).map importance)).imp_of_mem ?_
  intro a b a_member b_member before
  rwa [RemovedBefore, entry a a_member, entry b b_member] at before

/-- Whatever lists the positions in the order of removal: the kept ones are those past the first
    `remove`. -/
theorem mem_keptAmong_iff_mem_drop {ranked : List Nat} (perm : ranked.Perm (List.range width))
    (sorted : ranked.Pairwise (RemovedBefore importance)) {o : Nat} :
    o ∈ keptAmong importance width remove ↔ o ∈ ranked.drop remove := by
  rw [mem_keptAmong, mem_drop_iff sorted, perm.mem_iff, List.mem_range, perm.countP_eq]

theorem keptAmong_perm_drop {ranked : List Nat} (perm : ranked.Perm (List.range width))
    (sorted : ranked.Pairwise (RemovedBefore importance)) :
    (keptAmong importance width remove).Perm (ranked.drop remove) := by
  have ranked_nodup : ranked.Nodup := perm.nodup_iff.mpr List.nodup_range
  have kept_nodup := (keptAmong_pairwise importance width remove).imp fun h => Nat.ne_of_lt h
  apply (List.perm_ext_iff_of_nodup kept_nodup (ranked_nodup.sublist (List.drop_sublist _ _))).mpr
  intro o
  exact mem_keptAmong_iff_mem_drop perm sorted

/-- Every discarded neuron is removed before every kept one. -/
theorem removedBefore_of_not_mem_keptAmong {a o : Nat} (below : a < width)
    (discarded : a ∉ keptAmong importance width remove)
    (kept : o ∈ keptAmong importance width remove) : RemovedBefore importance a o := by
  have perm := ranking_map_perm importance width
  have sorted := ranking_map_pairwise importance width
  rw [mem_keptAmong_iff_mem_drop perm sorted] at discarded kept
  have ranked : a ∈ ranking ((List.range width).map importance) :=
    perm.mem_iff.mpr (List.mem_range.mpr below)
  rw [← List.take_append_drop remove (ranking ((List.range width).map importance))] at ranked sorted
  rcases List.mem_append.mp ranked with front | back
  · exact (List.pairwise_append.mp sorted).2.2 a front o kept
  · exact absurd back discarded

theorem length_keptAmong (importance : Nat → Float32) (width remove : Nat) :
    (keptAmong importance width remove).length = width - remove := by
  have perm := ranking_map_perm importance width
  have sorted := ranking_map_pairwise importance width
  rw [(keptAmong_perm_drop perm sorted).length_eq, List.length_drop, perm.length_eq,
    List.length_range]

/-- Dropping the first entries of a ranking and sorting the rest gives the kept neurons. -/
theorem mergeSort_drop_eq_keptAmong {ranked : List Nat} (perm : ranked.Perm (List.range width))
    (sorted : ranked.Pairwise (RemovedBefore importance)) :
    (ranked.drop remove).mergeSort (· ≤ ·) = keptAmong importance width remove := by
  have ascending : ((ranked.drop remove).mergeSort (· ≤ ·)).Pairwise (· ≤ ·) :=
    List.pairwise_mergeSort' (· ≤ ·) (ranked.drop remove)
  have kept_ascending := (keptAmong_pairwise importance width remove).imp fun h => Nat.le_of_lt h
  have same : ((ranked.drop remove).mergeSort (· ≤ ·)).Perm (keptAmong importance width remove) :=
    (List.mergeSort_perm _ _).trans (keptAmong_perm_drop perm sorted).symm
  exact same.eq_of_pairwise' ascending kept_ascending

/-- Of the neurons left by a first removal, a second one leaves those that enough of them come
    before. -/
theorem mem_keptAmong_add_iff {more o : Nat} :
    o ∈ keptAmong importance width (remove + more) ↔ o ∈ keptAmong importance width remove ∧
      more ≤ (keptAmong importance width remove).countP fun a => RemovedBefore importance a o := by
  have perm := ranking_map_perm importance width
  have sorted := ranking_map_pairwise importance width
  generalize ranking ((List.range width).map importance) = ranked at perm sorted
  have kept_perm : (keptAmong importance width remove).Perm (ranked.drop remove) :=
    keptAmong_perm_drop perm sorted
  have rest_sorted : (ranked.drop remove).Pairwise (RemovedBefore importance) :=
    sorted.sublist (List.drop_sublist remove ranked)
  rw [mem_keptAmong_iff_mem_drop perm sorted, ← List.drop_drop, mem_drop_iff rest_sorted,
    kept_perm.mem_iff, kept_perm.countP_eq]

/-- Where positions carry the importances of their neurons, as many positions are removed before one
    of them as neurons before its neuron. -/
theorem countP_removedBefore {importance' : Nat → Float32} {kept : List Nat}
    (increasing : kept.Pairwise (· < ·))
    (carried : ∀ i o, kept[i]? = some o → importance' i = importance o) {i o : Nat}
    (at_i : kept[i]? = some o) :
    (List.range kept.length).countP (fun j => RemovedBefore importance' j i) =
      kept.countP fun a => RemovedBefore importance a o := by
  conv_rhs => rw [← entries_range kept, entries, List.countP_filterMap]
  apply List.countP_congr
  intro j j_member
  obtain ⟨a, at_j⟩ : ∃ a, kept[j]? = some a :=
    ⟨_, List.getElem?_eq_getElem (List.mem_range.mp j_member)⟩
  -- equal importances are decided by position, and positions are in the order of their neurons
  have order : j < i ↔ a < o := lt_iff_of_getElem?_eq_some increasing at_j at_i
  have before : RemovedBefore importance' j i ↔ RemovedBefore importance a o := by
    rw [RemovedBefore, RemovedBefore, carried i o at_i, carried j a at_j, order]
  simpa [at_j] using before

/-- Removing some neurons and then some of the rest, with the importances that they had, keeps the
    same neurons as removing all of them at once. -/
theorem entries_keptAmong {importance' : Nat → Float32} (more : Nat)
    (carried : ∀ i o, (keptAmong importance width remove)[i]? = some o →
      importance' i = importance o) :
    entries (keptAmong importance width remove)
        (keptAmong importance' (keptAmong importance width remove).length more) =
      keptAmong importance width (remove + more) := by
  have increasing := keptAmong_pairwise importance width remove
  apply List.Pairwise.eq_of_mem_iff (r := (· < ·))
    (pairwise_entries increasing (keptAmong_pairwise importance' _ more))
    (keptAmong_pairwise importance width (remove + more))
  intro o
  rw [mem_keptAmong_add_iff, entries, List.mem_filterMap]
  constructor
  · rintro ⟨i, member, at_i⟩
    have enough := (mem_keptAmong.mp member).2
    rw [countP_removedBefore increasing carried at_i] at enough
    exact ⟨List.mem_of_getElem? at_i, enough⟩
  · rintro ⟨member, enough⟩
    obtain ⟨i, at_i⟩ := List.mem_iff_getElem?.mp member
    refine ⟨i, mem_keptAmong.mpr ⟨(List.getElem?_eq_some_iff.mp at_i).1, ?_⟩, at_i⟩
    rwa [countP_removedBefore increasing carried at_i]

end Kept

end FixedPointNet.Layer
