/-
# Numerals

A library for numbers that are written out in a radix, with any characters for the digits: the
canonical numeral has the most significant digit first and no zero in front, and reading it
gives the number back.
-/
import Mathlib

namespace Numerals

variable {α : Type*} (chr : ℕ → α) (val : α → ℕ) (radix : ℕ)

/-- The canonical numeral of a number. -/
def numeral (n : ℕ) : List α :=
  if n = 0 then [chr 0] else (Nat.digits radix n).reverse.map chr

/-- The number that a list of characters is read as, from the left. -/
def read (s : List α) : ℕ := s.foldl (fun n c => n * radix + val c) 0

/-- The characters are digits, without a zero in front of others, and are read as the number. -/
structure IsNumeral (n : ℕ) (s : List α) : Prop where
  nonempty : s ≠ []
  digits : ∀ c ∈ s, ∃ d < radix, c = chr d
  leading : s.head? = some (chr 0) → s = [chr 0]
  value : read val radix s = n

variable {chr val radix}

theorem numeral_zero : numeral chr radix 0 = [chr 0] := if_pos rfl

theorem numeral_pos {n : ℕ} (hn : n ≠ 0) :
    numeral chr radix n = (Nat.digits radix n).reverse.map chr := if_neg hn

theorem numeral_ne_nil (n : ℕ) : numeral chr radix n ≠ [] := by
  by_cases hn : n = 0
  · rw [hn, numeral_zero]
    exact List.cons_ne_nil _ _
  · rw [numeral_pos hn]
    intro h
    exact Nat.digits_ne_nil_iff_ne_zero.mpr hn
      (List.reverse_eq_nil_iff.mp (List.map_eq_nil_iff.mp h))

theorem mem_numeral (hr : 2 ≤ radix) {n : ℕ} {c : α} (hc : c ∈ numeral chr radix n) :
    ∃ d < radix, c = chr d := by
  by_cases hn : n = 0
  · rw [hn, numeral_zero, List.mem_singleton] at hc
    exact ⟨0, by omega, hc⟩
  · rw [numeral_pos hn] at hc
    obtain ⟨d, hd, rfl⟩ := List.mem_map.mp hc
    exact ⟨d, Nat.digits_lt_base hr (List.mem_reverse.mp hd), rfl⟩

/-- A number below a power of the radix has no more digits than the exponent. -/
theorem length_numeral_le (hr : 2 ≤ radix) {n k : ℕ} (hk : 0 < k) (hn : n < radix ^ k) :
    (numeral chr radix n).length ≤ k := by
  by_cases h0 : n = 0
  · rw [h0, numeral_zero]
    exact hk
  · rw [numeral_pos h0, List.length_map, List.length_reverse]
    exact (Nat.digits_length_le_iff hr n).mpr hn

/-! ## Reading -/

theorem read_cons_zero (hval : val (chr 0) = 0) (s : List α) :
    read val radix (chr 0 :: s) = read val radix s := by
  rw [read, List.foldl_cons, hval, Nat.zero_mul, Nat.add_zero, read]

/-- Zeros in front do not matter. -/
theorem read_replicate (hval : val (chr 0) = 0) (k : ℕ) (s : List α) :
    read val radix (List.replicate k (chr 0) ++ s) = read val radix s := by
  induction k with
  | zero => rfl
  | succ k ih => rw [List.replicate_succ, List.cons_append, read_cons_zero hval, ih]

/-- The digits are read from the most significant one on. -/
theorem read_digits {ds : List ℕ} (hval : ∀ d ∈ ds, val (chr d) = d) :
    read val radix (ds.reverse.map chr) = Nat.ofDigits radix ds := by
  rw [read, List.foldl_map, List.foldl_reverse, Nat.ofDigits_eq_foldr]
  induction ds with
  | nil => rfl
  | cons d ds ih =>
    rw [List.foldr_cons, List.foldr_cons, ih fun e he => hval e (List.mem_cons_of_mem d he),
      hval d List.mem_cons_self, Nat.cast_id, Nat.add_comm, Nat.mul_comm]

theorem read_numeral (hr : 2 ≤ radix) (hval : ∀ d < radix, val (chr d) = d) (n : ℕ) :
    read val radix (numeral chr radix n) = n := by
  by_cases hn : n = 0
  · rw [hn, numeral_zero, read_cons_zero (hval 0 (by omega))]
    rfl
  · rw [numeral_pos hn, read_digits fun d hd => hval d (Nat.digits_lt_base hr hd),
      Nat.ofDigits_digits]

/-- No zero is in front of other digits: the most significant digit is not zero. -/
theorem numeral_leading (hr : 2 ≤ radix) (hval : ∀ d < radix, val (chr d) = d) {n : ℕ}
    (h : (numeral chr radix n).head? = some (chr 0)) : numeral chr radix n = [chr 0] := by
  by_cases hn : n = 0
  · rw [hn, numeral_zero]
  · have hne : Nat.digits radix n ≠ [] := Nat.digits_ne_nil_iff_ne_zero.mpr hn
    rw [numeral_pos hn, List.head?_map, List.head?_reverse, List.getLast?_eq_some_getLast hne,
      Option.map_some, Option.some.injEq] at h
    have hlast := Nat.digits_lt_base hr (List.getLast_mem hne)
    have hzero : (Nat.digits radix n).getLast hne = 0 := by
      rw [← hval _ hlast, h, hval 0 (by omega)]
    exact absurd hzero (Nat.getLast_digit_ne_zero radix hn)

/-- **The canonical numeral.** -/
theorem isNumeral_numeral (hr : 2 ≤ radix) (hval : ∀ d < radix, val (chr d) = d) (n : ℕ) :
    IsNumeral chr val radix n (numeral chr radix n) where
  nonempty := numeral_ne_nil n
  digits _ hc := mem_numeral hr hc
  leading h := numeral_leading hr hval h
  value := read_numeral hr hval n

/-! ## A fixed number of digits -/

variable (chr radix) in
/-- The numeral with zeros in front, so that it has at least `k` digits. -/
def padded (k n : ℕ) : List α :=
  List.replicate (k - (numeral chr radix n).length) (chr 0) ++ numeral chr radix n

theorem length_padded (hr : 2 ≤ radix) {n k : ℕ} (hk : 0 < k) (hn : n < radix ^ k) :
    (padded chr radix k n).length = k := by
  have hlen : (numeral chr radix n).length ≤ k := length_numeral_le hr hk hn
  rw [padded, List.length_append, List.length_replicate]
  omega

theorem mem_padded (hr : 2 ≤ radix) {n k : ℕ} {c : α} (hc : c ∈ padded chr radix k n) :
    ∃ d < radix, c = chr d := by
  rcases List.mem_append.mp hc with hc | hc
  · exact ⟨0, by omega, List.eq_of_mem_replicate hc⟩
  · exact mem_numeral hr hc

theorem read_padded (hr : 2 ≤ radix) (hval : ∀ d < radix, val (chr d) = d) (k n : ℕ) :
    read val radix (padded chr radix k n) = n := by
  rw [padded, read_replicate (hval 0 (by omega)), read_numeral hr hval]

end Numerals
