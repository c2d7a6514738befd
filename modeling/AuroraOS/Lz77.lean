/-
# Literals and copies

A library for compressed text: a token is a literal or a copy of earlier output, and the
output of a list of tokens is built from left to right.  A copy may reach into the text that
it writes itself; then the output repeats itself.
-/
import Mathlib

namespace Lz77

variable {α : Type*}

/-- A literal, or a copy of `length` elements from `distance` back. -/
inductive Token (α : Type*)
  | literal (a : α)
  | copy (length distance : ℕ)

/-- The output behind a copy, one element after the other. -/
def copyBack (distance : ℕ) : ℕ → List α → List α
  | 0, out => out
  | n + 1, out => copyBack distance n (out ++ out[out.length - distance]?.toList)

/-- The output behind a token. -/
def Token.apply : Token α → List α → List α
  | literal a, out => out ++ [a]
  | copy length distance, out => copyBack distance length out

/-- The output behind a list of tokens. -/
def expand (tokens : List (Token α)) (out : List α) : List α :=
  tokens.foldl (fun out t => t.apply out) out

/-- How many elements a token writes. -/
def Token.size : Token α → ℕ
  | literal _ => 1
  | copy length _ => length

/-- A token that reaches back into the output, behind `n` elements. -/
def Token.Reaches (n : ℕ) : Token α → Prop
  | literal _ => True
  | copy _ distance => 0 < distance ∧ distance ≤ n

/-- Tokens that all reach back into the output. -/
def Valid : ℕ → List (Token α) → Prop
  | _, [] => True
  | n, t :: tokens => t.Reaches n ∧ Valid (n + t.size) tokens

variable {out : List α} {distance n start : ℕ} {t : Token α}

theorem length_copyBack (hpos : 0 < distance) (hle : distance ≤ out.length) :
    (copyBack distance n out).length = out.length + n := by
  induction n generalizing out with
  | zero => rfl
  | succ n ih =>
    have hget : out[out.length - distance]? = some out[out.length - distance] :=
      List.getElem?_eq_getElem (by omega)
    rw [copyBack, hget, Option.toList_some, ih (by rw [List.length_append]; omega),
      List.length_append, List.length_singleton]
    omega

theorem Token.length_apply (h : t.Reaches out.length) :
    (t.apply out).length = out.length + t.size := by
  cases t with
  | literal a => rw [apply, List.length_append, List.length_singleton, size]
  | copy length distance => rw [apply, length_copyBack h.1 h.2, size]

theorem length_expand {tokens : List (Token α)} :
    ∀ {out : List α}, Valid out.length tokens →
      (expand tokens out).length = out.length + (tokens.map Token.size).sum := by
  induction tokens with
  | nil => intro out _; rfl
  | cons t tokens ih =>
    intro out h
    have hlen := Token.length_apply h.1
    have hrest := @ih (t.apply out) (by rw [hlen]; exact h.2)
    rw [expand] at hrest ⊢
    rw [List.foldl_cons, hrest, hlen, List.map_cons, List.sum_cons, Nat.add_assoc]

theorem expand_append (tokens tokens' : List (Token α)) (out : List α) :
    expand (tokens ++ tokens') out = expand tokens' (expand tokens out) := List.foldl_append

theorem valid_append {tokens tokens' : List (Token α)} : ∀ {n : ℕ}, Valid n (tokens ++ tokens') ↔
    Valid n tokens ∧ Valid (n + (tokens.map Token.size).sum) tokens' := by
  induction tokens with
  | nil => intro n; exact (true_and _).symm ▸ Iff.rfl
  | cons t tokens ih =>
    intro n
    rw [List.cons_append, Valid, Valid, ih, and_assoc, List.map_cons, List.sum_cons, Nat.add_assoc]

/-! ## Copies that repeat themselves -/

/-- From `start` on, the output repeats what stands `distance` before. -/
def Repeats (start distance : ℕ) (out : List α) : Prop :=
  ∀ i, start ≤ i → i < out.length → out[i]? = out[i - distance]?

theorem repeats_length (out : List α) : Repeats out.length distance out :=
  fun _ hle hlt => absurd hlt (Nat.not_lt.mpr hle)

/-- A copied element continues the repetition. -/
theorem Repeats.append {a : α} (h : Repeats start distance out) (hpos : 0 < distance)
    (hle : distance ≤ out.length) (ha : out[out.length - distance]? = some a) :
    Repeats start distance (out ++ [a]) := by
  intro i hi hlt
  rw [List.length_append, List.length_singleton] at hlt
  rcases Nat.lt_succ_iff_lt_or_eq.mp hlt with hlt | rfl
  · rw [List.getElem?_append_left hlt, List.getElem?_append_left (by omega), h i hi hlt]
  · rw [List.getElem?_append_right le_rfl, Nat.sub_self, List.getElem?_append_left (by omega), ha]
    rfl

/-- **The element a copy takes next stands in the window before its start**, too. -/
theorem Repeats.window (h : Repeats start distance out) (hstart : distance ≤ start) {k : ℕ}
    (hk : start + k ≤ out.length) :
    out[start + k - distance]? = out[start - distance + k % distance]? := by
  induction k using Nat.strong_induction_on with
  | _ k ih =>
    rcases Nat.lt_or_ge k distance with hlt | hge
    · rw [Nat.mod_eq_of_lt hlt]
      congr 1
      omega
    · rcases Nat.eq_zero_or_pos distance with rfl | hpos
      · rw [Nat.mod_zero]
        rfl
      have hback : start + k - distance - distance = start + (k - distance) - distance := by omega
      rw [h _ (by omega) (by omega), hback, ih (k - distance) (by omega) (by omega),
        Nat.mod_eq_sub_mod hge]

end Lz77
