/-
# Results of partial programs

A library for programs that return a result or stop with a fault: `Ensures E P` says that a
result satisfies `P` and that a fault is one of `E`.  The rules follow the structure of the
program: a result, a fault, a sequence, a case distinction, and a weaker postcondition.
-/
import AuroraOS.Machine

namespace Machine

universe u v

variable {φ : Type u} {α β : Type v} {E : φ → Prop} {P P' : α → Prop} {Q : β → Prop}

/-- The result satisfies `P`, or the fault is one of `E`. -/
structure Ensures (E : φ → Prop) (P : α → Prop) (x : Except φ α) : Prop where
  result : ∀ a, x = .ok a → P a
  fault : ∀ e, x = .error e → E e

namespace Ensures

theorem ok {a : α} (h : P a) : Ensures E P (.ok a) where
  result _ ha := Except.ok.inj ha ▸ h
  fault _ he := by cases he

theorem error {e : φ} (h : E e) : Ensures E P (.error e) where
  result _ ha := by cases ha
  fault _ he := Except.error.inj he ▸ h

theorem mono {x : Except φ α} (h : Ensures E P x) (hP : ∀ a, P a → P' a) : Ensures E P' x :=
  ⟨fun a ha => hP a (h.result a ha), h.fault⟩

/-- A sequence: the second program starts from what the first one ensures. -/
theorem bind {x : Except φ α} {f : α → Except φ β} (hx : Ensures E P x)
    (hf : ∀ a, P a → Ensures E Q (f a)) : Ensures E Q (x >>= f) := by
  cases x with
  | ok a => exact hf a (hx.result a rfl)
  | error e => exact error (hx.fault e rfl)

/-- A case distinction. -/
theorem ite {c : Prop} [Decidable c] {x y : Except φ α} (hx : c → Ensures E P x)
    (hy : ¬c → Ensures E P y) : Ensures E P (if c then x else y) := by
  by_cases h : c
  · rw [if_pos h]
    exact hx h
  · rw [if_neg h]
    exact hy h

end Ensures

end Machine
