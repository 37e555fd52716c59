import FixedPointNet.Wire
import Mathlib.Data.List.Basic
import Mathlib.Tactic.Ring

/-!
# Reading inverts writing

A byte format is lawful for the values that fit it when reading returns a value and a rest exactly
where the bytes are the written value followed by that rest. Then a written value is read back, what
follows it is left alone, and a part of it that ends early is not read at all. Numbers of a fixed
count of bytes are lawful, and so are pairs, lists and stored values of lawful formats.
-/

namespace FixedPointNet.Wire

variable {α β : Type} {item : Wire α} {fits : α → Prop}

/-- The format reads exactly what it writes of the values that fit. -/
structure Lawful (item : Wire α) (fits : α → Prop) : Prop where
  read_eq_some_iff : ∀ {bytes rest : List UInt8} {x : α},
    item.read bytes = some (x, rest) ↔ fits x ∧ bytes = item.write x ++ rest

namespace Lawful

theorem congr (lawful : item.Lawful fits) {fits' : α → Prop} (same : ∀ x, fits x ↔ fits' x) :
    item.Lawful fits' where
  read_eq_some_iff := by
    intro bytes rest x
    rw [lawful.read_eq_some_iff, same x]

theorem read_write (lawful : item.Lawful fits) {x : α} (fit : fits x) (rest : List UInt8) :
    item.read (item.write x ++ rest) = some (x, rest) :=
  lawful.read_eq_some_iff.mpr ⟨fit, rfl⟩

/-- A written value that is cut off is not read. -/
theorem read_eq_none (lawful : item.Lawful fits) {x : α} (fit : fits x) {part : List UInt8}
    (begins : part <+: item.write x) (cut : part ≠ item.write x) : item.read part = none := by
  obtain ⟨missing, whole⟩ := begins
  cases read : item.read part with
  | none => rfl
  | some found =>
    obtain ⟨y, rest⟩ := found
    obtain ⟨y_fits, rfl⟩ := lawful.read_eq_some_iff.mp read
    -- the whole bytes would be read in two ways, with nothing left and with the missing end left
    have twice : item.read (item.write x) = some (y, rest ++ missing) := by
      rw [← whole, List.append_assoc]
      exact lawful.read_write y_fits _
    have once : item.read (item.write x) = some (x, []) := by
      simpa using lawful.read_write fit []
    rw [once, Option.some.injEq, Prod.mk.injEq, eq_comm, List.nil_eq,
      List.append_eq_nil_iff] at twice
    obtain ⟨-, -, rfl⟩ := twice
    exact absurd (by simpa using whole) cut

end Lawful

@[simp] theorem length_writeNat (count n : Nat) : (writeNat count n).length = count := by
  induction count generalizing n with
  | zero => rfl
  | succ count ih => rw [writeNat, List.length_cons, ih]

theorem readNat_eq_some_iff {count n : Nat} {bytes rest : List UInt8} :
    readNat count bytes = some (n, rest) ↔ n < 256 ^ count ∧ bytes = writeNat count n ++ rest := by
  induction count generalizing n bytes with
  | zero =>
    simp only [readNat, writeNat, Option.some.injEq, Prod.mk.injEq, Nat.pow_zero, Nat.lt_one_iff,
      List.nil_append]
    exact and_congr_left' eq_comm
  | succ count ih =>
    have bound : n / 256 < 256 ^ count ↔ n < 256 ^ (count + 1) := by
      rw [Nat.div_lt_iff_lt_mul (by decide), Nat.pow_succ]
    cases bytes with
    | nil => simp [readNat, writeNat]
    | cons byte bytes =>
      simp only [readNat, writeNat, Option.bind_eq_bind, Option.bind_eq_some_iff, Prod.exists,
        List.cons_append, List.cons.injEq, Option.pure_def, Option.some.injEq, Prod.mk.injEq]
      constructor
      · rintro ⟨high, rest', read, rfl, rfl⟩
        obtain ⟨high_lt, rfl⟩ := ih.mp read
        have byte_lt : byte.toNat < 256 := byte.toNat_lt
        have low : (byte.toNat + 256 * high) % 256 = byte.toNat := by omega
        have front : (byte.toNat + 256 * high) / 256 = high := by omega
        refine ⟨bound.mp (by rwa [front]), ?_, by rw [front]⟩
        rw [low, UInt8.ofNat_toNat]
      · rintro ⟨n_lt, rfl, rfl⟩
        have low_lt : n % 256 < UInt8.size := Nat.mod_lt n (by decide)
        refine ⟨n / 256, rest, ih.mpr ⟨bound.mpr n_lt, rfl⟩, ?_, rfl⟩
        rw [UInt8.toNat_ofNat_of_lt' low_lt, Nat.mod_add_div]

theorem lawful_nat (count : Nat) : (nat count).Lawful (· < 256 ^ count) :=
  ⟨readNat_eq_some_iff⟩

theorem Lawful.readItems_eq_some_iff (lawful : item.Lawful fits) {count : Nat} {xs : List α}
    {bytes rest : List UInt8} :
    readItems item count bytes = some (xs, rest) ↔
      xs.length = count ∧ (∀ x ∈ xs, fits x) ∧ bytes = xs.flatMap item.write ++ rest := by
  induction count generalizing xs bytes rest with
  | zero =>
    simp only [readItems, Option.some.injEq, Prod.mk.injEq, List.length_eq_zero_iff]
    constructor
    · rintro ⟨rfl, rfl⟩
      simp
    · rintro ⟨rfl, -, rfl⟩
      simp
  | succ count ih =>
    simp only [readItems, Option.bind_eq_bind, Option.bind_eq_some_iff, Prod.exists,
      Option.pure_def, Option.some.injEq, Prod.mk.injEq, lawful.read_eq_some_iff, ih]
    constructor
    · rintro ⟨x, _, ⟨x_fits, rfl⟩, xs, _, ⟨rfl, xs_fit, rfl⟩, rfl, rfl⟩
      simpa using ⟨x_fits, xs_fit⟩
    · rintro ⟨length, fit, rfl⟩
      cases xs with
      | nil => simp at length
      | cons x xs =>
        obtain ⟨x_fits, xs_fit⟩ := List.forall_mem_cons.mp fit
        exact ⟨x, _, ⟨x_fits, by simp⟩, xs, _, ⟨Nat.succ_inj.mp length, xs_fit, rfl⟩, rfl, rfl⟩

theorem Lawful.list (lawful : item.Lawful fits) :
    item.list.Lawful fun xs => xs.length < 256 ^ 8 ∧ ∀ x ∈ xs, fits x where
  read_eq_some_iff := by
    intro bytes rest xs
    simp only [Wire.list, Option.bind_eq_bind, Option.bind_eq_some_iff, Prod.exists,
      readNat_eq_some_iff, lawful.readItems_eq_some_iff]
    constructor
    · rintro ⟨_, _, ⟨count_lt, rfl⟩, rfl, fit, rfl⟩
      exact ⟨⟨count_lt, fit⟩, by simp⟩
    · rintro ⟨⟨count_lt, fit⟩, rfl⟩
      exact ⟨_, _, ⟨count_lt, by simp⟩, rfl, fit, rfl⟩

theorem Lawful.pair {second : Wire β} {fits' : β → Prop} (lawful : item.Lawful fits)
    (lawful' : second.Lawful fits') :
    (item.pair second).Lawful fun x => fits x.1 ∧ fits' x.2 where
  read_eq_some_iff := by
    rintro bytes rest ⟨x, y⟩
    simp only [Wire.pair, Option.bind_eq_bind, Option.bind_eq_some_iff, Prod.exists,
      Option.pure_def, Option.some.injEq, Prod.mk.injEq, lawful.read_eq_some_iff,
      lawful'.read_eq_some_iff]
    constructor
    · rintro ⟨_, _, ⟨x_fits, rfl⟩, _, _, ⟨y_fits, rfl⟩, ⟨rfl, rfl⟩, rfl⟩
      exact ⟨⟨x_fits, y_fits⟩, by simp⟩
    · rintro ⟨⟨x_fits, y_fits⟩, rfl⟩
      exact ⟨x, _, ⟨x_fits, by simp⟩, y, rest, ⟨y_fits, rfl⟩, ⟨rfl, rfl⟩, rfl⟩

/-- A format for stored values is one for what they stand for, where each stored value that fits
    stands for at most one thing and that is stored as itself. -/
theorem Lawful.via (lawful : item.Lawful fits) {store : β → α} {restore? : α → Option β}
    (restores : ∀ stored x, fits stored → (restore? stored = some x ↔ stored = store x)) :
    (item.via store restore?).Lawful fun x => fits (store x) where
  read_eq_some_iff := by
    intro bytes rest x
    simp only [Wire.via, Option.bind_eq_bind, Option.bind_eq_some_iff, Prod.exists, Option.pure_def,
      Option.some.injEq, Prod.mk.injEq, lawful.read_eq_some_iff]
    constructor
    · rintro ⟨stored, _, ⟨fit, rfl⟩, _, restored, rfl, rfl⟩
      obtain rfl := (restores stored _ fit).mp restored
      exact ⟨fit, rfl⟩
    · rintro ⟨fit, rfl⟩
      exact ⟨store x, rest, ⟨fit, rfl⟩, x, (restores _ x fit).mpr rfl, rfl, rfl⟩

end FixedPointNet.Wire
