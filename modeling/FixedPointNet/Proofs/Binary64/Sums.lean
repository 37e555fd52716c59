import FixedPointNet.Proofs.Binary64.Exact

/-!
# Sums of many floats

A sum is rounded after every term. Where no term is negative and none exceeds one, the running sum
does not decrease, and it stops growing at 2 ^ 53 at the latest, however many terms follow. Terms
that are multiples of one power of two are added exactly as long as the sum has few bits.
-/

namespace FixedPointNet.Binary64

/-- The numbers of floats, one by one. -/
def Numbers (xs : List Float) (vs : List ℚ) : Prop :=
  List.Forall₂ (fun x v => value? x = some v) xs vs

/-- The running sum of numbers, rounded after every term. -/
def runningSum (start : ℚ) (ts : List ℚ) : ℚ :=
  ts.foldl (fun s t => rounded (s + t)) start

/-- No term is negative, and none exceeds one. -/
def Shares (ts : List ℚ) : Prop :=
  ∀ t ∈ ts, 0 ≤ t ∧ t ≤ 1

variable {x y : Float} {xs : List Float} {s t : ℚ} {ts : List ℚ} {ks : List ℤ} {n : ℤ}

theorem Numbers.mem {xs : List Float} {vs : List ℚ} {v : ℚ} (numbers : Numbers xs vs)
    (member : x ∈ xs) (at_v : value? x = some v) : v ∈ vs := by
  induction numbers with
  | nil => cases member
  | cons at_first _ ih =>
    rcases List.mem_cons.mp member with rfl | member
    · obtain rfl := Option.some.inj (at_v.symm.trans at_first)
      exact List.mem_cons_self
    · exact List.mem_cons_of_mem _ (ih member)

theorem numbers_map {α : Type} {g : α → Float} {f : α → ℚ} {members : List α}
    (each : ∀ a ∈ members, value? (g a) = some (f a)) :
    Numbers (members.map g) (members.map f) := by
  rw [Numbers, List.forall₂_map_left_iff, List.forall₂_map_right_iff, List.forall₂_same]
  exact each

/-- Floats and their numbers change together. -/
theorem Numbers.map {xs : List Float} {vs : List ℚ} {g : Float → Float} {f : ℚ → ℚ}
    (numbers : Numbers xs vs)
    (each : ∀ x, ∀ v ∈ vs, value? x = some v → value? (g x) = some (f v)) :
    Numbers (xs.map g) (vs.map f) := by
  induction numbers with
  | nil => exact .nil
  | cons at_first _ ih =>
    exact .cons (each _ _ List.mem_cons_self at_first)
      (ih fun x v member => each x v (List.mem_cons_of_mem _ member))

/-- What floats and their numbers are made into alike is the same list. -/
theorem Numbers.map_eq {β : Type} {xs : List Float} {vs : List ℚ} {g : Float → β} {f : ℚ → β}
    (numbers : Numbers xs vs) (each : ∀ x, ∀ v ∈ vs, value? x = some v → g x = f v) :
    xs.map g = vs.map f := by
  induction numbers with
  | nil => rfl
  | cons at_first _ ih =>
    rw [List.map_cons, List.map_cons, each _ _ List.mem_cons_self at_first,
      ih fun x v member => each x v (List.mem_cons_of_mem _ member)]

theorem exists_numbers {α : Type} {f : α → Float} {P : ℚ → Prop} {members : List α}
    (each : ∀ a ∈ members, ∃ v, value? (f a) = some v ∧ P v) :
    ∃ vs, Numbers (members.map f) vs ∧ ∀ v ∈ vs, P v := by
  induction members with
  | nil => exact ⟨[], .nil, fun v absent => nomatch absent⟩
  | cons a members ih =>
    obtain ⟨v, at_v, holds⟩ := each a List.mem_cons_self
    obtain ⟨vs, numbers, all⟩ := ih fun b member => each b (List.mem_cons_of_mem a member)
    exact ⟨v :: vs, .cons at_v numbers, List.forall_mem_cons.mpr ⟨holds, all⟩⟩

theorem Shares.head (shares : Shares (t :: ts)) : 0 ≤ t ∧ t ≤ 1 :=
  shares t List.mem_cons_self

theorem Shares.tail (shares : Shares (t :: ts)) : Shares ts :=
  fun t' member => shares t' (List.mem_cons_of_mem t member)

theorem rounded_le_two_pow_53 (le : s ≤ 2 ^ 53) (term_le : t ≤ 1) : rounded (s + t) ≤ 2 ^ 53 := by
  -- one more than 2 ^ 53 is a tie, which goes to the even neighbour
  have at_bound : value? 9007199254740992 = some (4503599627370496 * 2 ^ (1 : ℤ)) := rfl
  have at_next : value? (9007199254740992 + 1) = some (4503599627370496 * 2 ^ (1 : ℤ)) := rfl
  have tie := level_add at_bound value?_one
  rw [level_of_value? at_next, WithBot.coe_inj] at tie
  have bound : (4503599627370496 * 2 ^ (1 : ℤ) : ℚ) = 2 ^ 53 := by norm_num
  rw [bound] at tie
  rw [tie]
  exact Rounding.rounded_mono _ (by linarith)

/-- One term more keeps a running sum a number. -/
theorem value?_add (at_s : value? x = some s) (at_t : value? y = some t) (nonneg : 0 ≤ s)
    (le : s ≤ 2 ^ 53) (share : 0 ≤ t ∧ t ≤ 1) : value? (x + y) = some (rounded (s + t)) := by
  apply value?_of_abs_le (level_add at_s at_t)
  rw [abs_of_nonneg (by linarith)]
  linarith

theorem le_rounded_add (at_s : value? x = some s) (nonneg : 0 ≤ t) : s ≤ rounded (s + t) := by
  have mono := Rounding.rounded_mono .binary64 (show s ≤ s + t by linarith)
  exact (rounded_of_value? at_s).symm.trans_le mono

theorem le_rounded_add_right (at_t : value? y = some t) (nonneg : 0 ≤ s) :
    t ≤ rounded (s + t) := by
  have mono := Rounding.rounded_mono .binary64 (show t ≤ s + t by linarith)
  exact (rounded_of_value? at_t).symm.trans_le mono

/-- A running sum over shares is a number that does not decrease and does not exceed 2 ^ 53. -/
theorem value?_foldl_add (numbers : Numbers xs ts) (shares : Shares ts)
    (at_s : value? x = some s) (nonneg : 0 ≤ s) (le : s ≤ 2 ^ 53) :
    value? (xs.foldl (· + ·) x) = some (runningSum s ts) ∧ s ≤ runningSum s ts ∧
      runningSum s ts ≤ 2 ^ 53 := by
  induction numbers generalizing x s with
  | nil => exact ⟨at_s, le_rfl, le⟩
  | @cons y t xs ts at_t _ ih =>
    have grows := le_rounded_add at_s shares.head.1
    obtain ⟨at_sum, later, bounded⟩ := ih shares.tail
      (value?_add at_s at_t nonneg le shares.head) (nonneg.trans grows)
      (rounded_le_two_pow_53 le shares.head.2)
    exact ⟨at_sum, grows.trans later, bounded⟩

/-- No term exceeds a running sum. -/
theorem le_runningSum_of_mem (numbers : Numbers xs ts) (shares : Shares ts)
    (at_s : value? x = some s) (nonneg : 0 ≤ s) (le : s ≤ 2 ^ 53) :
    ∀ t ∈ ts, t ≤ runningSum s ts := by
  induction numbers generalizing x s with
  | nil => exact fun t absent => nomatch absent
  | @cons y t xs ts at_t rest ih =>
    have grows := le_rounded_add at_s shares.head.1
    have at_next := value?_add at_s at_t nonneg le shares.head
    have next_le := rounded_le_two_pow_53 le shares.head.2
    obtain ⟨-, later, -⟩ :=
      value?_foldl_add rest shares.tail at_next (nonneg.trans grows) next_le
    refine List.forall_mem_cons.mpr ⟨?_, ih shares.tail at_next (nonneg.trans grows) next_le⟩
    exact (le_rounded_add_right at_t nonneg).trans later

/-- What every step of a running sum bounds, the whole sum bounds. -/
theorem sum_map_mul_le {f : ℚ → ℚ} {c total : ℚ} (numbers : Numbers xs ts) (shares : Shares ts)
    (at_s : value? x = some s) (nonneg : 0 ≤ s) (le : s ≤ 2 ^ 53) (ends : runningSum s ts ≤ total)
    (step : ∀ (x : Float) (s t : ℚ), value? x = some s → 0 ≤ s → s ≤ total → 0 ≤ t → t ≤ 1 →
      f t * total ≤ c * (rounded (s + t) - s)) :
    (ts.map f).sum * total ≤ c * (runningSum s ts - s) := by
  induction numbers generalizing x s with
  | nil => simp [runningSum]
  | @cons y t xs ts at_t rest ih =>
    have grows := le_rounded_add at_s shares.head.1
    have at_next := value?_add at_s at_t nonneg le shares.head
    have next_le := rounded_le_two_pow_53 le shares.head.2
    obtain ⟨-, later, -⟩ :=
      value?_foldl_add rest shares.tail at_next (nonneg.trans grows) next_le
    have s_le : s ≤ total := (grows.trans later).trans ends
    have first := step x s t at_s nonneg s_le shares.head.1 shares.head.2
    have others := ih shares.tail at_next (nonneg.trans grows) next_le ends
    calc ((t :: ts).map f).sum * total
        = f t * total + (ts.map f).sum * total := by
          rw [List.map_cons, List.sum_cons, add_mul]
      _ ≤ c * (rounded (s + t) - s) + c * (runningSum (rounded (s + t)) ts - rounded (s + t)) :=
          add_le_add first others
      _ = c * (runningSum s (t :: ts) - s) := by
          rw [← mul_add, sub_add_sub_cancel', runningSum, runningSum, List.foldl_cons]

/-- A running sum over shares does not exceed their number. -/
theorem runningSum_le {n : Nat} (shares : Shares ts) (le : s ≤ n) (few : n + ts.length < 2 ^ 53) :
    runningSum s ts ≤ n + ts.length := by
  induction ts generalizing s n with
  | nil => simpa [runningSum] using le
  | cons t ts ih =>
    rw [List.length_cons] at few ⊢
    have at_next := value?_ofInt (show |((n + 1 : Nat) : ℤ)| < 2 ^ 53 by rw [abs_lt]; omega)
    have next_le : rounded (s + t) ≤ (n + 1 : Nat) := by
      have sum_le : s + t ≤ ((n + 1 : Nat) : ℤ) := by
        push_cast
        linarith [shares.head.2]
      exact_mod_cast rounded_le_of_value? at_next sum_le
    have rest := ih shares.tail next_le (by omega)
    rw [runningSum, List.foldl_cons, ← runningSum]
    push_cast at rest ⊢
    linarith

/-- Multiples of one power of two are added exactly as long as the sum has few bits. -/
theorem value?_foldl_add_exact {B : Nat} (few : B ≤ 1000) {ns : List ℤ} {n : ℤ}
    (numbers : Numbers xs (ns.map fun k : ℤ => (k : ℚ) / 2 ^ B))
    (at_s : value? x = some ((n : ℚ) / 2 ^ B)) (nonneg : 0 ≤ n) (terms_nonneg : ∀ k ∈ ns, 0 ≤ k)
    (small : n + ns.sum < 2 ^ 53) :
    value? (xs.foldl (· + ·) x) = some (((n + ns.sum : ℤ) : ℚ) / 2 ^ B) := by
  induction ns generalizing x n xs with
  | nil =>
    cases numbers
    simpa using at_s
  | cons k ns ih =>
    rw [List.map_cons] at numbers
    obtain _ | ⟨at_k, rest⟩ := numbers
    have k_nonneg : 0 ≤ k := terms_nonneg k List.mem_cons_self
    have others_nonneg : ∀ k' ∈ ns, 0 ≤ k' :=
      fun k' member => terms_nonneg k' (List.mem_cons_of_mem k member)
    have sum_nonneg : 0 ≤ ns.sum := List.sum_nonneg others_nonneg
    rw [List.sum_cons] at small ⊢
    have fits : |n + k| < 2 ^ 53 := by
      rw [abs_of_nonneg (by omega)]
      omega
    have sum : (n / 2 ^ B + k / 2 ^ B : ℚ) = ((n + k : ℤ) : ℚ) / 2 ^ B := by
      rw [Int.cast_add, add_div]
    have added := level_add at_s at_k
    rw [sum] at added
    have at_next := value?_of_representable added (representable_div_two_pow fits few)
      (lt_limit_of_le_two_pow (abs_div_two_pow_le fits B))
    have run := ih rest at_next (by omega) others_nonneg (by omega)
    rwa [add_assoc] at run

theorem value?_sum_exact {B : Nat} (few : B ≤ 1000) {ns : List ℤ}
    (numbers : Numbers xs (ns.map fun k : ℤ => (k : ℚ) / 2 ^ B)) (terms_nonneg : ∀ k ∈ ns, 0 ≤ k)
    (small : ns.sum < 2 ^ 53) : value? (xs.foldl (· + ·) 0) = some ((ns.sum : ℚ) / 2 ^ B) := by
  have at_zero : value? 0 = some (((0 : ℤ) : ℚ) / 2 ^ B) := by
    rw [Int.cast_zero, zero_div]
    exact value?_zero
  have summed := value?_foldl_add_exact few numbers at_zero le_rfl terms_nonneg (by omega)
  rwa [zero_add] at summed

/-- A share of a whole is rounded by as little of it, also where the share is zero. -/
theorem abs_rounded_share_sub_le {k : ℤ} (nonneg : 0 ≤ k) (le : k ≤ n) (pos : 0 < n) :
    |rounded (k / n) - k / n| ≤ k * (1 / (n * 2 ^ 53) + 1 / 2 ^ 100) := by
  have n_pos : (0 : ℚ) < n := by exact_mod_cast pos
  rcases nonneg.eq_or_lt with rfl | counts
  · rw [Int.cast_zero, zero_div, rounded, Rounding.rounded_zero]
    simp
  · have one_le : (1 : ℚ) ≤ k := by exact_mod_cast counts
    have share_nonneg : (0 : ℚ) ≤ k / n := div_nonneg (by linarith) n_pos.le
    have share_le : (k / n : ℚ) ≤ 1 := (div_le_one n_pos).mpr (by exact_mod_cast le)
    have moved := abs_rounded_sub_le share_nonneg
      (share_le.trans (by linarith [two_pow_lt_limit]))
    have split : (k / n / 2 ^ 53 : ℚ) = k * (1 / (n * 2 ^ 53)) := by
      field_simp
    rw [split] at moved
    rw [mul_add]
    linarith

/-- Shares of a whole, each rounded on its own, add up to what they are shares of. -/
theorem abs_sum_rounded_sub_le (nonneg : ∀ k ∈ ks, 0 ≤ k) (le : ∀ k ∈ ks, k ≤ n) (pos : 0 < n) :
    |(ks.map fun k : ℤ => rounded (k / n)).sum - ks.sum / n| ≤
      ks.sum * (1 / (n * 2 ^ 53) + 1 / 2 ^ 100) := by
  induction ks with
  | nil => simp
  | cons k ks ih =>
    have first := abs_rounded_share_sub_le (nonneg k List.mem_cons_self)
      (le k List.mem_cons_self) pos
    have others := ih (fun k' member => nonneg k' (List.mem_cons_of_mem k member))
      (fun k' member => le k' (List.mem_cons_of_mem k member))
    rw [List.map_cons, List.sum_cons, List.sum_cons, Int.cast_add, add_div, add_mul,
      add_sub_add_comm]
    exact (abs_add_le _ _).trans (add_le_add first others)

end FixedPointNet.Binary64
