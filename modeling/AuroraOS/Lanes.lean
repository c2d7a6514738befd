/-
# Lanes of a packed word

A library for numbers that hold several values side by side, each in a lane of `w` bits: a
bitwise operation on two packed numbers is the operation on every lane, and a bitwise or is a
sum as far as its arguments have no bit in common.
-/
import Mathlib.Data.Nat.Bitwise
import Mathlib.Tactic.Ring

namespace Lanes

/-! ## Lanes -/

/-- The `k`-th value of a number with lanes of `w` bits. -/
def lane (w k n : ℕ) : ℕ := n / 2 ^ (w * k) % 2 ^ w

theorem lane_lt (w k n : ℕ) : lane w k n < 2 ^ w := Nat.mod_lt _ (Nat.two_pow_pos w)

/-- **Or acts on every lane.** -/
theorem lane_or (w k m n : ℕ) : lane w k (m ||| n) = lane w k m ||| lane w k n := by
  rw [lane, Nat.or_div_two_pow, Nat.or_mod_two_pow, lane, lane]

/-- **And acts on every lane.** -/
theorem lane_and (w k m n : ℕ) : lane w k (m &&& n) = lane w k m &&& lane w k n := by
  rw [lane, Nat.and_div_two_pow, Nat.and_mod_two_pow, lane, lane]

/-- A lane that the mask selects. -/
theorem lane_and_ones {w k m : ℕ} (n : ℕ) (h : lane w k m = 2 ^ w - 1) :
    lane w k (n &&& m) = lane w k n := by
  rw [lane_and, h, Nat.and_two_pow_sub_one_eq_mod, Nat.mod_eq_of_lt (lane_lt w k n)]

/-- A lane that the mask clears. -/
theorem lane_and_zero {w k m : ℕ} (n : ℕ) (h : lane w k m = 0) : lane w k (n &&& m) = 0 := by
  rw [lane_and, h, Nat.and_zero]

/-! ## Or as a sum -/

/-- What two numbers have in common is missing in their bitwise or. -/
theorem or_add_and (m n : ℕ) : (m ||| n) + (m &&& n) = m + n := by
  induction m using Nat.binaryRec generalizing n with
  | zero => rw [Nat.zero_or, Nat.zero_and, Nat.add_comm]
  | bit a m ih =>
    obtain ⟨b, n, rfl⟩ : ∃ b n', n = Nat.bit b n' := ⟨n.bodd, n.div2, (Nat.bit_bodd_div2 n).symm⟩
    have hrest := ih n
    rw [Nat.lor_bit, Nat.land_bit]
    cases a <;> cases b <;> simp only [Nat.bit_val, Bool.or_true, Bool.or_false, Bool.and_true,
      Bool.and_false, Bool.toNat_true, Bool.toNat_false] <;> omega

/-- Bitwise or is a sum exactly when no bit is set in both numbers. -/
theorem or_eq_add_iff (m n : ℕ) : m ||| n = m + n ↔ m &&& n = 0 := by
  have h := or_add_and m n
  omega

end Lanes
