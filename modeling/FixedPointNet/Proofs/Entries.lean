import FixedPointNet.Layer.Restriction
import Mathlib.Data.List.Basic
import Mathlib.Data.List.Sort

/-!
# Selected entries of a list

Restricting a layer, ranking its neurons and masking a row all select entries of a list by their
positions. `entries` is this selection as a total function. Selections compose: entries of entries
are the entries at the selected positions.
-/

namespace FixedPointNet

variable {α β γ : Type}

/-- All positions are below a width. -/
def Within (width : Nat) (positions : List Nat) : Prop :=
  ∀ i ∈ positions, i < width

/-- The entries of a list at the given positions. Positions past the end have none. -/
def entries (xs : List α) (positions : List Nat) : List α :=
  positions.filterMap fun i => xs[i]?

theorem within_range (width : Nat) : Within width (List.range width) := by
  intro i member
  exact List.mem_range.mp member

theorem Within.tail {width i : Nat} {positions : List Nat}
    (within : Within width (i :: positions)) : Within width positions :=
  fun j member => within j (List.mem_cons_of_mem i member)

theorem Within.exists_entry {xs : List α} {positions : List Nat}
    (within : Within xs.length positions) : ∀ i ∈ positions, ∃ x, xs[i]? = some x :=
  fun i member => ⟨_, List.getElem?_eq_getElem (within i member)⟩

theorem Within.head_entry {xs : List α} {i : Nat} {positions : List Nat}
    (within : Within xs.length (i :: positions)) : ∃ x, xs[i]? = some x :=
  within.exists_entry i List.mem_cons_self

theorem entries_cons {xs : List α} {i : Nat} {x : α} (positions : List Nat)
    (at_i : xs[i]? = some x) : entries xs (i :: positions) = x :: entries xs positions := by
  simp [entries, at_i]

theorem mem_of_mem_entries {xs : List α} {positions : List Nat} {x : α}
    (member : x ∈ entries xs positions) : x ∈ xs := by
  obtain ⟨i, -, at_i⟩ := List.mem_filterMap.mp member
  exact List.mem_of_getElem? at_i

theorem Within.entries {width : Nat} {positions : List Nat} (within : Within width positions)
    (selected : List Nat) : Within width (entries positions selected) :=
  fun i member => within i (mem_of_mem_entries member)

section FilterMap

variable {f : α → Option β} {xs : List α}

/-- Where every member has an image, there is one image for each. -/
theorem length_filterMap_of_some (each : ∀ x ∈ xs, ∃ y, f x = some y) :
    (xs.filterMap f).length = xs.length := by
  induction xs with
  | nil => rfl
  | cons x xs ih =>
    obtain ⟨y, at_x⟩ := each x List.mem_cons_self
    have rest := ih fun z member => each z (List.mem_cons_of_mem x member)
    rw [List.filterMap_cons_some at_x, List.length_cons, List.length_cons, rest]

/-- Where every member has an image, the image of a member stands at its position. -/
theorem getElem?_filterMap_of_some (each : ∀ x ∈ xs, ∃ y, f x = some y) (k : Nat) :
    (xs.filterMap f)[k]? = xs[k]?.bind f := by
  induction xs generalizing k with
  | nil => rfl
  | cons x xs ih =>
    obtain ⟨y, at_x⟩ := each x List.mem_cons_self
    rw [List.filterMap_cons_some at_x]
    cases k with
    | zero => simp [at_x]
    | succ k => simpa using ih (fun z member => each z (List.mem_cons_of_mem x member)) k

end FilterMap

theorem length_entries {xs : List α} {positions : List Nat} (within : Within xs.length positions) :
    (entries xs positions).length = positions.length :=
  length_filterMap_of_some within.exists_entry

/-- Entry `k` of a selection stands at the `k`-th selected position. -/
theorem getElem?_entries {xs : List α} {positions : List Nat} (within : Within xs.length positions)
    (k : Nat) : (entries xs positions)[k]? = positions[k]?.bind fun i => xs[i]? :=
  getElem?_filterMap_of_some within.exists_entry k

theorem entries_range (xs : List α) : entries xs (List.range xs.length) = xs := by
  apply List.ext_getElem?
  intro k
  rw [getElem?_entries (within_range xs.length)]
  by_cases below : k < xs.length
  · simp [List.getElem?_range below]
  · have above : xs.length ≤ k := Nat.le_of_not_lt below
    rw [List.getElem?_eq_none_iff.mpr above, List.getElem?_eq_none_iff.mpr (by simpa using above)]
    rfl

theorem entries_range_of_length {xs : List α} {width : Nat} (length : xs.length = width) :
    entries xs (List.range width) = xs := by
  subst length
  exact entries_range xs

theorem map_getD_range (xs : List α) (d : α) :
    (List.range xs.length).map (fun i => xs.getD i d) = xs := by
  apply List.ext_getElem
  · simp
  · intro i _ below
    simp [below]

theorem entries_of_range {width : Nat} {positions : List Nat} (within : Within width positions) :
    entries (List.range width) positions = positions := by
  conv_rhs => rw [← List.filterMap_some (l := positions)]
  apply List.filterMap_congr
  intro i member
  exact List.getElem?_range (within i member)

/-- Entries of entries are the entries at the selected positions. -/
theorem entries_entries {xs : List α} {positions : List Nat} (within : Within xs.length positions)
    (selected : List Nat) :
    entries (entries xs positions) selected = entries xs (entries positions selected) := by
  unfold entries
  rw [List.filterMap_filterMap]
  apply List.filterMap_congr
  intro k _
  exact getElem?_entries within k

theorem map_entries (f : α → β) (xs : List α) (positions : List Nat) :
    (entries xs positions).map f = entries (xs.map f) positions := by
  simp [entries, List.map_filterMap]

theorem zipWith_entries (f : α → β → γ) {xs : List α} {ys : List β} {positions : List Nat}
    (within_left : Within xs.length positions) (within_right : Within ys.length positions) :
    List.zipWith f (entries xs positions) (entries ys positions) =
      entries (List.zipWith f xs ys) positions := by
  induction positions with
  | nil => rfl
  | cons i positions ih =>
    obtain ⟨x, at_left⟩ := within_left.head_entry
    obtain ⟨y, at_right⟩ := within_right.head_entry
    have at_both : (List.zipWith f xs ys)[i]? = some (f x y) := by
      simp [List.getElem?_zipWith, at_left, at_right]
    rw [entries_cons positions at_left, entries_cons positions at_right,
      entries_cons positions at_both, List.zipWith_cons_cons,
      ih within_left.tail within_right.tail]

/-- A strictly increasing list of positions is the range without the other positions. -/
theorem filter_mem_range {width : Nat} {positions : List Nat}
    (increasing : positions.Pairwise (· < ·)) (within : Within width positions) :
    (List.range width).filter (· ∈ positions) = positions := by
  apply List.Pairwise.eq_of_mem_iff (List.pairwise_lt_range.filter _) increasing
  intro i
  rw [List.mem_filter, List.mem_range, decide_eq_true_eq]
  constructor
  · rintro ⟨-, member⟩
    exact member
  · intro member
    exact ⟨within i member, member⟩

/-- Where only selected entries pass a test, those that pass are found in the selection. -/
theorem filter_entries {xs : List α} {positions : List Nat} {test : α → Bool}
    (increasing : positions.Pairwise (· < ·)) (within : Within xs.length positions)
    (others : ∀ i x, xs[i]? = some x → i ∉ positions → test x = false) :
    (entries xs positions).filter test = xs.filter test := by
  conv_lhs => rw [← filter_mem_range increasing within]
  conv_rhs => rw [← entries_range xs]
  unfold entries
  rw [List.filterMap_filter, List.filter_filterMap, List.filter_filterMap]
  apply List.filterMap_congr
  intro i member
  obtain ⟨x, at_i⟩ : ∃ x, xs[i]? = some x :=
    ⟨_, List.getElem?_eq_getElem (List.mem_range.mp member)⟩
  by_cases selected : i ∈ positions
  · simp [selected]
  · have fails : test x = false := others i x at_i selected
    simp [selected, at_i, Option.filter, fails]

@[simp] theorem entries_replicate {width : Nat} {positions : List Nat} (x : α)
    (within : Within width positions) :
    entries (List.replicate width x) positions = List.replicate positions.length x := by
  induction positions with
  | nil => rfl
  | cons i positions ih =>
    have at_i : (List.replicate width x)[i]? = some x := by
      rw [List.getElem?_replicate, if_pos (within i List.mem_cons_self)]
    rw [entries_cons positions at_i, ih within.tail]
    rfl

/-- The entries of a strictly increasing list are in the order of their positions. -/
theorem lt_iff_of_getElem?_eq_some {positions : List Nat} (increasing : positions.Pairwise (· < ·))
    {i j a b : Nat} (at_i : positions[i]? = some a) (at_j : positions[j]? = some b) :
    i < j ↔ a < b := by
  obtain ⟨i_lt, rfl⟩ := List.getElem?_eq_some_iff.mp at_i
  obtain ⟨j_lt, rfl⟩ := List.getElem?_eq_some_iff.mp at_j
  have ascends := List.pairwise_iff_getElem.mp increasing
  constructor
  · intro i_lt_j
    exact ascends i j i_lt j_lt i_lt_j
  · intro a_lt_b
    rcases Nat.lt_trichotomy i j with less | rfl | greater
    · exact less
    · exact absurd a_lt_b (Nat.lt_irrefl _)
    · exact absurd (ascends j i j_lt i_lt greater) (Nat.lt_asymm a_lt_b)

theorem pairwise_entries {positions selected : List Nat} (increasing : positions.Pairwise (· < ·))
    (selected_increasing : selected.Pairwise (· < ·)) :
    (entries positions selected).Pairwise (· < ·) := by
  apply List.Pairwise.filterMap _ _ selected_increasing
  intro i j i_lt_j a at_i b at_j
  exact (lt_iff_of_getElem?_eq_some increasing at_i at_j).mp i_lt_j

/-- An operation succeeds on a list with its results on the members. -/
theorem mapM_eq_ok_iff_forall₂ {ε : Type} {f : α → Except ε β} {xs : List α} {ys : List β} :
    xs.mapM f = .ok ys ↔ List.Forall₂ (fun x y => f x = .ok y) xs ys := by
  induction xs generalizing ys with
  | nil => cases ys <;> simp [pure, Except.pure]
  | cons x xs ih =>
    simp only [List.mapM_cons, except_bind_eq_ok_iff, ih, pure, Except.pure, Except.ok.injEq]
    refine ⟨?_, fun each => ?_⟩
    · rintro ⟨y, at_x, ys, each, rfl⟩
      exact .cons at_x each
    · obtain _ | ⟨at_x, each⟩ := each
      exact ⟨_, at_x, _, each, rfl⟩

theorem exists_forall₂ {R : α → β → Prop} {xs : List α} (each : ∀ x ∈ xs, ∃ y, R x y) :
    ∃ ys, List.Forall₂ R xs ys := by
  induction xs with
  | nil => exact ⟨[], .nil⟩
  | cons x xs ih =>
    obtain ⟨y, at_x⟩ := each x List.mem_cons_self
    obtain ⟨ys, rest⟩ := ih fun z member => each z (List.mem_cons_of_mem x member)
    exact ⟨y :: ys, .cons at_x rest⟩

theorem mapM_eq_ok {ε : Type} {f : α → Except ε β} {g : α → β} {xs : List α}
    (each : ∀ x ∈ xs, f x = .ok (g x)) : xs.mapM f = .ok (xs.map g) := by
  rw [mapM_eq_ok_iff_forall₂, List.forall₂_map_right_iff, List.forall₂_same]
  exact each

/-- Two operations that succeed together on every member succeed together on the list. -/
theorem exists_mapM_eq_ok {ε : Type} {f : α → Except ε β} {g : α → Except ε γ} {h : β → γ}
    {xs : List α} (each : ∀ x ∈ xs, ∃ y, f x = .ok y ∧ g x = .ok (h y)) :
    ∃ ys, xs.mapM f = .ok ys ∧ xs.mapM g = .ok (ys.map h) := by
  obtain ⟨ys, both⟩ := exists_forall₂ each
  simp only [mapM_eq_ok_iff_forall₂, List.forall₂_map_right_iff]
  exact ⟨ys, both.imp fun _ _ => And.left, both.imp fun _ _ => And.right⟩

/-- An operation that succeeds on every member succeeds on the list. -/
theorem exists_mapM_of_forall {ε : Type} {f : α → Except ε β} {P : α → β → Prop} {xs : List α}
    (each : ∀ x ∈ xs, ∃ y, f x = .ok y ∧ P x y) :
    ∃ ys, xs.mapM f = .ok ys ∧ List.Forall₂ P xs ys := by
  obtain ⟨ys, both⟩ := exists_forall₂ each
  simp only [mapM_eq_ok_iff_forall₂]
  exact ⟨ys, both.imp fun _ _ => And.left, both.imp fun _ _ => And.right⟩

/-- What a relation implies of its second members holds of the second of related lists. -/
theorem forall_mem_of_forall₂ {R : α → β → Prop} {P : β → Prop} {xs : List α} {ys : List β}
    (related : List.Forall₂ R xs ys) (implies : ∀ x y, R x y → P y) : ∀ y ∈ ys, P y := by
  induction related with
  | nil => exact fun y absent => nomatch absent
  | cons first _ ih => exact List.forall_mem_cons.mpr ⟨implies _ _ first, ih⟩

/-- An operation succeeds on a list where it succeeds on all members. -/
theorem exists_mapM_eq_ok_iff {ε : Type} {f : α → Except ε β} {xs : List α} :
    (∃ ys, xs.mapM f = .ok ys) ↔ ∀ x ∈ xs, ∃ y, f x = .ok y := by
  simp only [mapM_eq_ok_iff_forall₂]
  refine ⟨?_, exists_forall₂⟩
  rintro ⟨ys, each⟩
  exact forall_mem_of_forall₂ each.flip fun y _ at_x => ⟨y, at_x⟩

/-- An operation that returns the entry at each existing position returns a selection of them. -/
theorem mapM_eq_entries {ε : Type} {f : Nat → Except ε α} {xs : List α} {positions : List Nat}
    (each : ∀ i x, xs[i]? = some x → f i = .ok x) (within : Within xs.length positions) :
    positions.mapM f = .ok (entries xs positions) := by
  induction positions with
  | nil => rfl
  | cons i positions ih =>
    obtain ⟨x, at_i⟩ := within.head_entry
    rw [List.mapM_cons, each i x at_i, ih within.tail, entries_cons positions at_i]
    rfl

theorem Layer.pick_eq {xs : List α} {positions : List Nat} (within : Within xs.length positions) :
    Layer.pick xs positions = .ok (entries xs positions) := by
  apply mapM_eq_entries _ within
  intro i x at_i
  rw [at_i]

end FixedPointNet
