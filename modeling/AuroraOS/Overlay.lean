/-
# Overlays

A library for memories, functions from addresses to cells, of which a range is overwritten, and
for loops that fill a range cell by cell, each cell from what the memory holds at that time.
-/
import Mathlib.Data.Nat.Init
import Mathlib.Logic.Function.Basic
import Mathlib.Tactic.SplitIfs

namespace Overlay

variable {α : Type*}

/-- The memory with the cells of `r` in the `n` places from `base` on. -/
def overlay (m : ℕ → α) (base n : ℕ) (r : ℕ → α) : ℕ → α := fun a =>
  if base ≤ a ∧ a < base + n then r (a - base) else m a

variable {m : ℕ → α} {base n k : ℕ} {r s : ℕ → α}

theorem overlay_inside (h : k < n) : overlay m base n r (base + k) = r k := by
  rw [overlay, if_pos (by omega), Nat.add_sub_cancel_left]

theorem overlay_outside {a : ℕ} (h : a < base ∨ base + n ≤ a) : overlay m base n r a = m a := by
  rw [overlay, if_neg (by omega)]

theorem overlay_zero : overlay m base 0 r = m := by
  funext a
  exact overlay_outside (by omega)

theorem overlay_congr (h : ∀ k < n, r k = s k) : overlay m base n r = overlay m base n s := by
  funext a
  rw [overlay, overlay]
  split_ifs with ha
  · exact h _ (by omega)
  · rfl

/-- One more cell. -/
theorem overlay_succ : overlay m base (n + 1) r =
    Function.update (overlay m base n r) (base + n) (r n) := by
  funext a
  by_cases ha : a = base + n
  · rw [ha, Function.update_self, overlay_inside (Nat.lt_succ_self n)]
  · rw [Function.update_of_ne ha, overlay, overlay]
    split_ifs <;> first | rfl | omega

/-- An overlay behind another one. -/
theorem overlay_add : overlay m base (n + k) r =
    overlay (overlay m base n r) (base + n) k fun i => r (n + i) := by
  induction k with
  | zero => rw [overlay_zero, Nat.add_zero]
  | succ k ih => rw [← Nat.add_assoc, overlay_succ, ih, overlay_succ, Nat.add_assoc]

/-! ## Filling -/

/-- The loop that fills `n` places of a range, from place `i` on. -/
def fill (base : ℕ) (f : (ℕ → α) → ℕ → α) : ℕ → ℕ → (ℕ → α) → ℕ → α
  | 0, _, m => m
  | n + 1, i, m => fill base f n (i + 1) (Function.update m (base + i) (f m i))

variable {f : (ℕ → α) → ℕ → α}

/-- **A range is filled with `r`** when every cell is computed as it is in `r`, out of what is
filled in up to there. -/
theorem fill_eq (h : ∀ i, k ≤ i → i < k + n → f (overlay m base i r) i = r i) :
    fill base f n k (overlay m base k r) = overlay m base (k + n) r := by
  induction n generalizing k with
  | zero => rfl
  | succ n ih =>
    rw [fill, h k (Nat.le_refl k) (by omega), ← overlay_succ,
      ih fun i hi hlt => h i (by omega) (by omega), Nat.add_right_comm, Nat.add_assoc]

theorem fill_eq_zero (h : ∀ i < n, f (overlay m base i r) i = r i) :
    fill base f n 0 m = overlay m base n r := by
  have hfill := fill_eq (m := m) (n := n) (k := 0) fun i _ hi => h i (by omega)
  rwa [overlay_zero, Nat.zero_add] at hfill

/-- Nothing else is written. -/
theorem fill_outside {a : ℕ} : ∀ {n i : ℕ} {m : ℕ → α}, a < base ∨ base + (i + n) ≤ a →
    fill base f n i m a = m a := by
  intro n
  induction n with
  | zero => intro i m _; rfl
  | succ n ih =>
    intro i m ha
    rw [fill, ih (by omega), Function.update_of_ne (by omega)]

end Overlay
