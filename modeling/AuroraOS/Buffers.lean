/-
# Buffers

A library for buffers of characters, with checked subscripts: lists that are stored in a buffer,
strings that end in a zero, and a range that is turned around in place.

A loop that goes forward is given the number of elements that the buffer has left; it goes out
of the bounds when it does not end before.
-/
import AuroraOS.QuickSort

namespace CheckedArray

open Machine

/-! ## Stored lists -/

section Store

variable {α : Type*}

/-- A buffer with a list stored from index `i` on. -/
def store (arr : ℤ → α) (i : ℤ) (as : List α) : ℤ → α := fun k =>
  if k < i then arr k else (as[(k - i).toNat]?).getD (arr k)

variable {arr : ℤ → α} {i k : ℤ} {as bs : List α}

theorem store_before (h : k < i) : store arr i as k = arr k := if_pos h

theorem store_behind (h : i + as.length ≤ k) : store arr i as k = arr k := by
  rw [store, if_neg (by omega), List.getElem?_eq_none (by omega), Option.getD_none]

theorem store_get {j : ℕ} {a : α} (h : as[j]? = some a) : store arr i as (i + j) = a := by
  have hj : (i + (j : ℤ) - i).toNat = j := by omega
  rw [store, if_neg (by omega), hj, h, Option.getD_some]

theorem store_nil (arr : ℤ → α) (i : ℤ) : store arr i [] = arr := by
  funext k
  by_cases hk : k < i
  · exact store_before hk
  · exact store_behind (by rw [List.length_nil]; omega)

/-- **Two lists, one behind the other.** -/
theorem store_append (arr : ℤ → α) (i : ℤ) (as bs : List α) :
    store (store arr (i + as.length) bs) i as = store arr i (as ++ bs) := by
  funext k
  by_cases hk : k < i
  · rw [store_before hk, store_before hk, store_before (by omega)]
  obtain ⟨j, rfl⟩ : ∃ j : ℕ, k = i + j := ⟨(k - i).toNat, by omega⟩
  have hj : (i + (j : ℤ) - i).toNat = j := by omega
  by_cases hlt : j < as.length
  · rw [store_get (List.getElem?_eq_getElem hlt)]
    symm
    apply store_get
    rw [List.getElem?_append_left hlt, List.getElem?_eq_getElem hlt]
  · have hj' : (i + (j : ℤ) - (i + as.length)).toNat = j - as.length := by omega
    rw [store_behind (by omega), store, if_neg (by omega), store, if_neg (by omega), hj, hj',
      List.getElem?_append_right (by omega)]

theorem store_singleton (arr : ℤ → α) (i : ℤ) (a : α) :
    store arr i [a] = Function.update arr i a := by
  funext k
  rw [Function.update_apply]
  split_ifs with hk
  · have h : store arr i [a] (i + (0 : ℕ)) = a := store_get rfl
    rw [Nat.cast_zero, add_zero] at h
    rw [hk, h]
  · rcases lt_or_gt_of_ne hk with hlt | hgt
    · exact store_before hlt
    · exact store_behind (by rw [List.length_singleton]; omega)

/-- The other order of the stores. -/
theorem store_store (arr : ℤ → α) (i : ℤ) (as bs : List α) :
    store (store arr i as) (i + as.length) bs = store arr i (as ++ bs) := by
  rw [← store_append]
  funext k
  by_cases hk : k < i + as.length
  · rw [store_before hk]
    by_cases hk' : k < i
    · rw [store_before hk', store_before hk', store_before hk]
    · obtain ⟨j, rfl⟩ : ∃ j : ℕ, k = i + j := ⟨(k - i).toNat, by omega⟩
      have hj : as[j]? = some _ := List.getElem?_eq_getElem (by omega)
      rw [store_get hj, store_get hj]
  · have hold : store arr i as k = arr k := store_behind (by omega)
    have hbehind : store (store arr (i + as.length) bs) i as k = store arr (i + as.length) bs k :=
      store_behind (by omega)
    rw [hbehind, store, if_neg hk, hold, store, if_neg hk]

/-- One more element behind a list. -/
theorem update_store (arr : ℤ → α) (i : ℤ) (as : List α) (a : α) :
    Function.update (store arr i as) (i + as.length) a = store arr i (as ++ [a]) := by
  rw [← store_singleton, store_store]

/-- One more element in front of a list. -/
theorem store_update (arr : ℤ → α) (i : ℤ) (a : α) (as : List α) :
    store (Function.update arr i a) (i + 1) as = store arr i (a :: as) := by
  rw [← store_singleton]
  exact store_store arr i [a] as

end Store

/-! ## Turning a range around -/

section Reflect

variable {α : Type*}

/-- A buffer with the range from `first` to `last` turned around. -/
def reflect (first last : ℤ) (arr : ℤ → α) : ℤ → α := fun k =>
  if first ≤ k ∧ k ≤ last then arr (first + last - k) else arr k

/-- At most one element. -/
theorem reflect_of_le {first last : ℤ} (h : last ≤ first) (arr : ℤ → α) :
    reflect first last arr = arr := by
  funext k
  rw [reflect]
  split_ifs with hk
  · have hsame : first + last - k = k := by omega
    rw [hsame]
  · rfl

/-- The outer pair is exchanged, and the rest turned around. -/
theorem reflect_swap {first last : ℤ} (h : first < last) (arr : ℤ → α) :
    reflect (first + 1) (last - 1) (QuickSort.swap arr last first) = reflect first last arr := by
  funext k
  have hmirror : first + 1 + (last - 1) - k = first + last - k := by omega
  simp only [reflect, QuickSort.swap_apply, hmirror]
  by_cases hin : first ≤ k ∧ k ≤ last
  · rw [if_pos hin]
    by_cases hk : first + 1 ≤ k ∧ k ≤ last - 1
    · rw [if_pos hk, if_neg (by omega), if_neg (by omega)]
    · have hend : k = first ∨ k = last := by omega
      rw [if_neg hk]
      rcases hend with rfl | rfl
      · rw [if_pos rfl, add_sub_cancel_left]
      · rw [if_neg (by omega), if_pos rfl, add_sub_cancel_right]
  · rw [if_neg hin, if_neg (by omega), if_neg (by omega), if_neg (by omega)]

/-- **A stored list is turned around**, and what is behind it stays. -/
theorem reflect_store (arr : ℤ → α) (i : ℤ) (as bs : List α) :
    reflect i (i + as.length - 1) (store arr i (as ++ bs)) = store arr i (as.reverse ++ bs) := by
  rw [← store_append, ← store_append, List.length_reverse]
  generalize store arr (i + as.length) bs = arr
  funext k
  rw [reflect]
  split_ifs with hk
  · obtain ⟨j, rfl⟩ : ∃ j : ℕ, k = i + j := ⟨(k - i).toNat, by omega⟩
    obtain ⟨j', hj'⟩ : ∃ j' : ℕ, j + j' + 1 = as.length := ⟨as.length - 1 - j, by omega⟩
    have hmirror : i + (i + (as.length : ℤ) - 1) - (i + j) = i + j' := by omega
    have hget : as[j']? = some _ := List.getElem?_eq_getElem (by omega)
    have hget' : as.reverse[j]? = some _ := (List.getElem?_reverse' hj').trans hget
    rw [hmirror, store_get hget, store_get hget']
  · rcases lt_or_ge k i with hlt | hge
    · rw [store_before hlt, store_before hlt]
    · rw [store_behind (by omega), store_behind (by rw [List.length_reverse]; omega)]

variable {b : Bounds}

/-- The loop that turns a range of a buffer around, with indices from `s` on: the pair of `beg` and
`last` is exchanged, and both move on, `n` times at most. -/
def reverseLoop (b : Bounds) (s : ℤ) : ℕ → ℤ → ℤ → (ℤ → α) → Except OutOfBounds (ℤ → α)
  | 0, _, _, arr => .ok arr
  | n + 1, beg, last, arr =>
    if beg < last then do
      let arr ← QuickSort.swapChecked b arr (s + last) (s + beg)
      reverseLoop b s n (beg + 1) (last - 1) arr
    else .ok arr

theorem reverseLoop_eq (s : ℤ) (n : ℕ) : ∀ {beg last : ℤ} {arr : ℤ → α}, last - beg ≤ n →
    b.first ≤ s + beg → s + last ≤ b.last →
      reverseLoop b s n beg last arr = .ok (reflect (s + beg) (s + last) arr) := by
  induction n with
  | zero =>
    intro beg last arr hn _ _
    rw [reverseLoop, reflect_of_le (by omega)]
  | succ n ih =>
    intro beg last arr hn hfirst hlast
    push_cast at hn
    rw [reverseLoop]
    by_cases hlt : beg < last
    · have hnext : s + (beg + 1) = s + beg + 1 := by omega
      have hprev : s + (last - 1) = s + last - 1 := by omega
      rw [if_pos hlt, QuickSort.swapChecked_eq ⟨by omega, hlast⟩ ⟨hfirst, by omega⟩, ok_bind,
        ih (by omega) (by omega) (by omega), hnext, hprev, reflect_swap (by omega)]
    · rw [if_neg hlt, reflect_of_le (by omega)]

end Reflect

/-! ## Strings -/

section Strings

variable {α : Type} [Zero α]

/-- A string without zeros lies in a buffer, with a zero behind it. -/
def HasText (arr : ℤ → α) : ℤ → List α → Prop
  | i, [] => arr i = 0
  | i, c :: cs => c ≠ 0 ∧ arr i = c ∧ HasText arr (i + 1) cs

theorem hasText_store {s : List α} : ∀ {arr : ℤ → α} {i : ℤ} (rest : List α), (∀ c ∈ s, c ≠ 0) →
    HasText (store arr i (s ++ 0 :: rest)) i s := by
  induction s with
  | nil =>
    intro arr i rest _
    have h : store arr i (0 :: rest) (i + (0 : ℕ)) = 0 := store_get rfl
    rw [Nat.cast_zero, add_zero] at h
    exact h
  | cons c cs ih =>
    intro arr i rest hs
    have h : store arr i (c :: cs ++ 0 :: rest) (i + (0 : ℕ)) = c := store_get rfl
    rw [Nat.cast_zero, add_zero] at h
    refine ⟨hs c List.mem_cons_self, h, ?_⟩
    rw [List.cons_append, ← store_update]
    exact ih rest fun d hd => hs d (List.mem_cons_of_mem c hd)

variable [DecidableEq α]

/-- The loop that counts the characters of a string, with `n` elements left. -/
def lengthLoop (b : Bounds) (arr : ℤ → α) (i : ℤ) : ℕ → ℕ → Except OutOfBounds ℕ
  | 0, len => .error ⟨i + len⟩
  | n + 1, len => do
    let c ← b.get arr (i + len)
    if c = 0 then .ok len else lengthLoop b arr i n (len + 1)

/-- The loop over the characters of a string, with `n` elements left. -/
def textLoop (b : Bounds) (arr : ℤ → α) : ℕ → ℤ → Except OutOfBounds (List α)
  | 0, i => .error ⟨i⟩
  | n + 1, i => do
    let c ← b.get arr i
    if c = 0 then .ok [] else do
      let rest ← textLoop b arr n (i + 1)
      .ok (c :: rest)

variable {b : Bounds} {arr : ℤ → α} {s : List α}

theorem lengthLoop_eq (s : List α) : ∀ {i : ℤ} {n len : ℕ}, HasText arr (i + len) s →
    b.first ≤ i + len → i + len + s.length ≤ b.last → s.length < n →
      lengthLoop b arr i n len = .ok (len + s.length) := by
  induction s with
  | nil =>
    intro i n len h hfirst hlast hn
    obtain ⟨n, rfl⟩ : ∃ m, n = m + 1 := ⟨n - 1, by omega⟩
    rw [List.length_nil, Nat.cast_zero, add_zero] at hlast
    have hzero : arr (i + len) = 0 := h
    rw [lengthLoop, Bounds.get_eq ⟨hfirst, hlast⟩, ok_bind, if_pos hzero]
    rfl
  | cons c cs ih =>
    intro i n len h hfirst hlast hn
    obtain ⟨n, rfl⟩ : ∃ m, n = m + 1 := ⟨n - 1, by omega⟩
    rw [List.length_cons] at hlast hn ⊢
    push_cast at hlast
    have hnext : i + (len : ℤ) + 1 = i + ((len + 1 : ℕ) : ℤ) := by omega
    have hcs := h.2.2
    rw [hnext] at hcs
    rw [lengthLoop, Bounds.get_eq ⟨hfirst, by omega⟩, ok_bind, h.2.1, if_neg h.1,
      ih hcs (by omega) (by omega) (by omega), Nat.add_right_comm, Nat.add_assoc]

theorem textLoop_eq (s : List α) : ∀ {i : ℤ} {n : ℕ}, HasText arr i s → b.first ≤ i →
    i + s.length ≤ b.last → s.length < n → textLoop b arr n i = .ok s := by
  induction s with
  | nil =>
    intro i n h hfirst hlast hn
    obtain ⟨n, rfl⟩ : ∃ m, n = m + 1 := ⟨n - 1, by omega⟩
    rw [List.length_nil, Nat.cast_zero, add_zero] at hlast
    have hzero : arr i = 0 := h
    rw [textLoop, Bounds.get_eq ⟨hfirst, hlast⟩, ok_bind, if_pos hzero]
  | cons c cs ih =>
    intro i n h hfirst hlast hn
    obtain ⟨n, rfl⟩ : ∃ m, n = m + 1 := ⟨n - 1, by omega⟩
    rw [List.length_cons] at hlast hn
    push_cast at hlast
    rw [textLoop, Bounds.get_eq ⟨hfirst, by omega⟩, ok_bind, h.2.1, if_neg h.1,
      ih h.2.2 (by omega) (by omega) (by omega), ok_bind]

end Strings

end CheckedArray
