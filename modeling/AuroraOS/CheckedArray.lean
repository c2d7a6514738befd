/-
# Arrays with checked subscripts

A library for programs on arrays: an access at an index that is not in the bounds of the array
stops the program.  A checked program that does not stop is the program without the checks.
-/
import AuroraOS.Machine

namespace CheckedArray

open Machine

/-- An access at an index that is not in the bounds. -/
structure OutOfBounds where
  index : ℤ
  deriving DecidableEq

/-- The first and the last index of an array. -/
structure Bounds where
  first : ℤ
  last : ℤ

namespace Bounds

variable {α : Type*}

/-- The bounds of an array that is declared with `n` elements. -/
def ofSize (n : ℕ) : Bounds := ⟨0, (n : ℤ) - 1⟩

/-- The index is in the bounds. -/
def Has (b : Bounds) (i : ℤ) : Prop := b.first ≤ i ∧ i ≤ b.last

instance (b : Bounds) (i : ℤ) : Decidable (b.Has i) := inferInstanceAs (Decidable (_ ∧ _))

theorem ofSize_has {n : ℕ} {i : ℤ} : (ofSize n).Has i ↔ 0 ≤ i ∧ i < n := by
  simp only [ofSize, Has]
  omega

theorem Has.mono {b b' : Bounds} {i : ℤ} (h : b.Has i) (hfirst : b'.first ≤ b.first)
    (hlast : b.last ≤ b'.last) : b'.Has i :=
  ⟨hfirst.trans h.1, h.2.trans hlast⟩

/-- `arr[i]`. -/
def get (b : Bounds) (arr : ℤ → α) (i : ℤ) : Except OutOfBounds α :=
  if b.Has i then .ok (arr i) else .error ⟨i⟩

/-- `arr[i] = a`. -/
def set (b : Bounds) (arr : ℤ → α) (i : ℤ) (a : α) : Except OutOfBounds (ℤ → α) :=
  if b.Has i then .ok (Function.update arr i a) else .error ⟨i⟩

variable {b b' : Bounds} {i j : ℤ}

theorem get_eq (h : b.Has i) (arr : ℤ → α) : b.get arr i = .ok (arr i) := if_pos h

theorem set_eq (h : b.Has i) (arr : ℤ → α) (a : α) :
    b.set arr i a = .ok (Function.update arr i a) := if_pos h

/-- `arr[i][j]`, for an array of arrays. -/
def get₂ (b b' : Bounds) (arr : ℤ → ℤ → α) (i j : ℤ) : Except OutOfBounds α := do
  let row ← b.get arr i
  b'.get row j

/-- `arr[i][j] = a`. -/
def set₂ (b b' : Bounds) (arr : ℤ → ℤ → α) (i j : ℤ) (a : α) :
    Except OutOfBounds (ℤ → ℤ → α) := do
  let row ← b.get arr i
  let row ← b'.set row j a
  b.set arr i row

theorem get₂_eq (hi : b.Has i) (hj : b'.Has j) (arr : ℤ → ℤ → α) :
    b.get₂ b' arr i j = .ok (arr i j) := by
  rw [get₂, get_eq hi, ok_bind, get_eq hj]

/-- An array of arrays with one other element. -/
def put (arr : ℤ → ℤ → α) (i j : ℤ) (a : α) : ℤ → ℤ → α :=
  Function.update arr i (Function.update (arr i) j a)

theorem put_apply (arr : ℤ → ℤ → α) (i j : ℤ) (a : α) (k l : ℤ) :
    put arr i j a k l = if k = i ∧ l = j then a else arr k l := by
  rw [put, Function.update_apply]
  by_cases hk : k = i
  · rw [if_pos hk, Function.update_apply, hk]
    simp only [true_and]
  · rw [if_neg hk, if_neg fun h => hk h.1]

theorem set₂_eq (hi : b.Has i) (hj : b'.Has j) (arr : ℤ → ℤ → α) (a : α) :
    b.set₂ b' arr i j a = .ok (put arr i j a) := by
  rw [set₂, get_eq hi, ok_bind, set_eq hj, ok_bind, set_eq hi, put]

end Bounds

/-! ## Loops -/

variable {α β φ : Type*}

/-- The output of a loop over a list, as long as no iteration stops. -/
def collect (f : α → Except φ (List β)) : List α → Except φ (List β)
  | [] => .ok []
  | a :: as => do
    let bs ← f a
    let rest ← collect f as
    .ok (bs ++ rest)

/-- **The checked loop** is the loop, when no iteration stops. -/
theorem collect_eq {f : α → Except φ (List β)} {g : α → List β} :
    ∀ {as : List α}, (∀ a ∈ as, f a = .ok (g a)) → collect f as = .ok (as.flatMap g)
  | [], _ => rfl
  | a :: as, h => by
    have hrest : collect f as = .ok (as.flatMap g) :=
      collect_eq fun x hx => h x (List.mem_cons_of_mem a hx)
    rw [collect, h a List.mem_cons_self, ok_bind, hrest, ok_bind, List.flatMap_cons]

end CheckedArray
