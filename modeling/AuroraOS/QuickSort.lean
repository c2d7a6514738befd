/-
# Quicksort in place

A library for the quicksort that swaps inside an array and takes the last element of a range
as the pivot.  An array is a function on the integers, so that the ranges of the recursion may
be empty on either side; a range `low .. high` contains both ends.

The last parts are the same algorithm with checked subscripts, which stays in the range, and
its recursion without a bound on the depth, which comes to an end.
-/
import Mathlib
import AuroraOS.CheckedArray

namespace QuickSort

variable {α : Type*}

/-! ## The algorithm -/

/-- Exchange two elements. -/
@[inline] def swap (arr : ℤ → α) (i j : ℤ) : ℤ → α :=
  Function.update (Function.update arr i (arr j)) j (arr i)

variable [LinearOrder α]

/-- The scan of the partition, with `n` elements left from index `j` on; the elements up to
`i` are smaller than the pivot. -/
def scan (pivot : α) : ℕ → ℤ → ℤ → (ℤ → α) → (ℤ → α) × ℤ
  | 0, i, _, arr => (arr, i)
  | n + 1, i, j, arr =>
    if arr j < pivot then scan pivot n (i + 1) (j + 1) (swap arr (i + 1) j)
    else scan pivot n i (j + 1) arr

/-- Partition a range around its last element, and the place of that element. -/
def partition (arr : ℤ → α) (low high : ℤ) : (ℤ → α) × ℤ :=
  let r := scan (arr high) (high - low).toNat (low - 1) low arr
  (swap r.1 (r.2 + 1) high, r.2 + 1)

/-- Sort a range; the first argument bounds the depth of the recursion. -/
def sort : ℕ → (ℤ → α) → ℤ → ℤ → (ℤ → α)
  | 0, arr, _, _ => arr
  | n + 1, arr, low, high =>
    if low < high then
      let r := partition arr low high
      sort n (sort n r.1 low (r.2 - 1)) (r.2 + 1) high
    else arr

/-! ## Rearrangements -/

section Rearranges

variable {α : Type*} {arr arr' arr'' : ℤ → α} {low high : ℤ}

/-- The second array has the elements of the first one, and both agree outside of the
range. -/
def Rearranges (low high : ℤ) (arr arr' : ℤ → α) : Prop :=
  ∃ σ : Equiv.Perm ℤ, (∀ k, k < low ∨ high < k → σ k = k) ∧ arr' = arr ∘ σ

theorem Rearranges.refl (low high : ℤ) (arr : ℤ → α) : Rearranges low high arr arr :=
  ⟨1, fun _ _ => rfl, rfl⟩

theorem Rearranges.trans (h : Rearranges low high arr arr') (h' : Rearranges low high arr' arr'') :
    Rearranges low high arr arr'' := by
  obtain ⟨σ, hσ, rfl⟩ := h
  obtain ⟨τ, hτ, rfl⟩ := h'
  refine ⟨τ.trans σ, fun k hk => ?_, rfl⟩
  rw [Equiv.trans_apply, hτ k hk, hσ k hk]

theorem Rearranges.mono {low' high' : ℤ} (h : Rearranges low high arr arr') (hl : low' ≤ low)
    (hh : high ≤ high') : Rearranges low' high' arr arr' := by
  obtain ⟨σ, hσ, harr⟩ := h
  exact ⟨σ, fun k hk => hσ k (by omega), harr⟩

/-- Outside of the range nothing changes. -/
theorem Rearranges.outside (h : Rearranges low high arr arr') {k : ℤ} (hk : k < low ∨ high < k) :
    arr' k = arr k := by
  obtain ⟨σ, hσ, rfl⟩ := h
  rw [Function.comp_apply, hσ k hk]

/-- Every element of the range comes from the range. -/
theorem Rearranges.source (h : Rearranges low high arr arr') {k : ℤ} (hk : low ≤ k ∧ k ≤ high) :
    ∃ k', (low ≤ k' ∧ k' ≤ high) ∧ arr' k = arr k' := by
  obtain ⟨σ, hσ, rfl⟩ := h
  refine ⟨σ k, ?_, rfl⟩
  by_contra hout
  have hfix := σ.injective (hσ (σ k) (by omega))
  omega

theorem Rearranges.symm (h : Rearranges low high arr arr') : Rearranges low high arr' arr := by
  obtain ⟨σ, hσ, rfl⟩ := h
  refine ⟨σ.symm, fun k hk => ?_, ?_⟩
  · rw [Equiv.symm_apply_eq]
    exact (hσ k hk).symm
  · funext k
    simp

/-- What holds of all elements of the range still does. -/
theorem Rearranges.all {P : α → Prop} (h : Rearranges low high arr arr')
    (hall : ∀ k, low ≤ k → k ≤ high → P (arr k)) {k : ℤ} (hl : low ≤ k) (hh : k ≤ high) :
    P (arr' k) := by
  obtain ⟨k', hk', heq⟩ := h.source ⟨hl, hh⟩
  rw [heq]
  exact hall k' hk'.1 hk'.2

theorem swap_apply (arr : ℤ → α) (i j k : ℤ) :
    swap arr i j k = if k = j then arr i else if k = i then arr j else arr k := by
  simp only [swap, Function.update_apply]

theorem rearranges_swap (arr : ℤ → α) {i j : ℤ} (hi : low ≤ i ∧ i ≤ high)
    (hj : low ≤ j ∧ j ≤ high) : Rearranges low high arr (swap arr i j) := by
  refine ⟨Equiv.swap i j, fun k hk => ?_, ?_⟩
  · exact Equiv.swap_apply_of_ne_of_ne (by omega) (by omega)
  · funext k
    rw [swap_apply, Function.comp_apply, Equiv.swap_apply_def]
    split_ifs <;> simp_all

end Rearranges

/-! ## The partition -/

/-- **The scan** separates the elements that are smaller than the pivot from the others. -/
theorem scan_spec (pivot : α) (low high : ℤ) (n : ℕ) : ∀ (i j : ℤ) (arr : ℤ → α),
    low - 1 ≤ i → i < j → j + n = high → (∀ k, low ≤ k → k ≤ i → arr k < pivot) →
    (∀ k, i < k → k < j → pivot ≤ arr k) →
    Rearranges low (high - 1) arr (scan pivot n i j arr).1 ∧
      low - 1 ≤ (scan pivot n i j arr).2 ∧ (scan pivot n i j arr).2 < high ∧
      (∀ k, low ≤ k → k ≤ (scan pivot n i j arr).2 → (scan pivot n i j arr).1 k < pivot) ∧
      ∀ k, (scan pivot n i j arr).2 < k → k < high → pivot ≤ (scan pivot n i j arr).1 k := by
  induction n with
  | zero =>
    intro i j arr hlow hij hn hsmall hlarge
    exact ⟨.refl _ _ _, hlow, by simp only [scan]; omega, hsmall,
      fun k hk hk' => hlarge k hk (by omega)⟩
  | succ n ih =>
    intro i j arr hlow hij hn hsmall hlarge
    push_cast at hn
    rw [scan]
    by_cases hlt : arr j < pivot
    · rw [if_pos hlt]
      have hswap : Rearranges low (high - 1) arr (swap arr (i + 1) j) :=
        rearranges_swap arr (by omega) (by omega)
      obtain ⟨hre, hrest⟩ := ih (i + 1) (j + 1) (swap arr (i + 1) j) (by omega) (by omega)
        (by omega)
        (by
          intro k hk hk'
          rw [swap_apply]
          split_ifs with h1 h2
          · -- only when the two places are the same
            have hsame : i + 1 = j := by omega
            rwa [hsame]
          · exact hlt
          · exact hsmall k hk (by omega))
        (by
          intro k hk hk'
          rw [swap_apply]
          split_ifs with h1 h2
          · exact hlarge (i + 1) (by omega) (by omega)
          · omega
          · exact hlarge k (by omega) (by omega))
      exact ⟨hswap.trans hre, hrest⟩
    · rw [if_neg hlt]
      apply ih i (j + 1) arr hlow (by omega) (by omega) hsmall
      intro k hk hk'
      rcases eq_or_ne k j with rfl | hne
      · exact not_lt.mp hlt
      · exact hlarge k hk (by omega)

/-- **The partition** puts the pivot between the elements that are smaller and the others. -/
theorem partition_spec (arr : ℤ → α) {low high : ℤ} (h : low < high) :
    Rearranges low high arr (partition arr low high).1 ∧
      low ≤ (partition arr low high).2 ∧ (partition arr low high).2 ≤ high ∧
      (∀ k, low ≤ k → k < (partition arr low high).2 →
        (partition arr low high).1 k ≤ (partition arr low high).1 (partition arr low high).2) ∧
      ∀ k, (partition arr low high).2 < k → k ≤ high →
        (partition arr low high).1 (partition arr low high).2 ≤ (partition arr low high).1 k := by
  obtain ⟨hre, hlow, hhigh, hsmall, hlarge⟩ := scan_spec (arr high) low high
    (high - low).toNat (low - 1) low arr le_rfl (by omega) (by omega)
    (fun k hk hk' => by omega) (fun k hk hk' => by omega)
  unfold partition
  simp only
  set r := scan (arr high) (high - low).toNat (low - 1) low arr
  have hpivot : r.1 high = arr high := hre.outside (by omega)
  have hplace : swap r.1 (r.2 + 1) high (r.2 + 1) = arr high := by
    rw [swap_apply]
    by_cases h1 : r.2 + 1 = high
    · rw [if_pos h1, h1, hpivot]
    · rw [if_neg h1, if_pos rfl, hpivot]
  refine ⟨(hre.mono le_rfl (by omega)).trans (rearranges_swap _ (by omega) (by omega)), by omega,
    by omega, ?_, ?_⟩
  · intro k hk hk'
    rw [hplace, swap_apply, if_neg (by omega), if_neg (by omega)]
    exact (hsmall k hk (by omega)).le
  · intro k hk hk'
    rw [hplace, swap_apply]
    split_ifs with h1 h2
    · exact hlarge _ (by omega) (by omega)
    · omega
    · exact hlarge k (by omega) (by omega)

/-! ## Sorting -/

/-- The elements of a range are in order. -/
def SortedOn (arr : ℤ → α) (low high : ℤ) : Prop :=
  ∀ a b, low ≤ a → a ≤ b → b ≤ high → arr a ≤ arr b

/-- Two sorted ranges with an element between them. -/
theorem SortedOn.join {arr : ℤ → α} {low p high : ℤ} (hleft : SortedOn arr low (p - 1))
    (hright : SortedOn arr (p + 1) high) (hsmall : ∀ k, low ≤ k → k < p → arr k ≤ arr p)
    (hlarge : ∀ k, p < k → k ≤ high → arr p ≤ arr k) : SortedOn arr low high := by
  intro a b ha hab hb
  rcases lt_trichotomy a p with hap | rfl | hap
  · rcases lt_trichotomy b p with hbp | rfl | hbp
    · exact hleft a b ha hab (by omega)
    · exact hsmall a ha hap
    · exact (hsmall a ha hap).trans (hlarge b hbp hb)
  · rcases eq_or_lt_of_le hab with rfl | hlt
    · exact le_rfl
    · exact hlarge b hlt hb
  · exact hright a b (by omega) hab hb

/-- **Quicksort sorts** the range, once the depth is at least its length. -/
theorem sort_spec (n : ℕ) : ∀ (arr : ℤ → α) (low high : ℤ), high - low < n →
    Rearranges low high arr (sort n arr low high) ∧ SortedOn (sort n arr low high) low high := by
  induction n with
  | zero =>
    intro arr low high hn
    exact ⟨.refl _ _ _, fun a b ha hab hb => by push_cast at hn; omega⟩
  | succ n ih =>
    intro arr low high hn
    push_cast at hn
    rw [sort]
    by_cases hlt : low < high
    · rw [if_pos hlt]
      obtain ⟨hpart, hl, hh, hsmall, hlarge⟩ := partition_spec arr hlt
      simp only
      set r := partition arr low high
      obtain ⟨hleft, hsl⟩ := ih r.1 low (r.2 - 1) (by omega)
      set left := sort n r.1 low (r.2 - 1)
      obtain ⟨hright, hsr⟩ := ih left (r.2 + 1) high (by omega)
      set right := sort n left (r.2 + 1) high
      refine ⟨(hpart.trans (hleft.mono le_rfl (by omega))).trans (hright.mono (by omega) le_rfl),
        ?_⟩
      -- the pivot stays where it is, and each half stays on its side of it
      have hpivot : right r.2 = r.1 r.2 := by
        rw [hright.outside (by omega), hleft.outside (by omega)]
      apply SortedOn.join (p := r.2)
      · intro a b ha hab hb
        rw [hright.outside (by omega), hright.outside (by omega)]
        exact hsl a b ha hab hb
      · exact hsr
      · intro k hk hk'
        rw [hpivot, hright.outside (by omega)]
        exact hleft.all (P := fun v => v ≤ r.1 r.2) (fun k hk hk' => hsmall k hk (by omega)) hk
          (by omega)
      · intro k hk hk'
        rw [hpivot]
        refine hright.all (P := fun v => r.1 r.2 ≤ v) (fun k hk hk' => ?_) (by omega) hk'
        rw [hleft.outside (by omega)]
        exact hlarge k (by omega) hk'
    · rw [if_neg hlt]
      refine ⟨.refl _ _ _, fun a b ha hab hb => ?_⟩
      have hsame : a = b := by omega
      rw [hsame]

/-! ## Lists of elements -/

section Lists

variable {α : Type*} {arr arr' : ℤ → α} {low high : ℤ}

/-- The indices of a range, in order. -/
def indices (low high : ℤ) : List ℤ :=
  (List.range (high - low + 1).toNat).map fun i : ℕ => low + i

/-- The elements of a range, in order. -/
def elements (arr : ℤ → α) (low high : ℤ) : List α := (indices low high).map arr

theorem mem_indices {k : ℤ} : k ∈ indices low high ↔ low ≤ k ∧ k ≤ high := by
  simp only [indices, List.mem_map, List.mem_range]
  constructor
  · rintro ⟨i, hi, rfl⟩
    omega
  · rintro ⟨hl, hh⟩
    exact ⟨(k - low).toNat, by omega, by omega⟩

theorem indices_sorted (low high : ℤ) : (indices low high).Pairwise (· < ·) := by
  refine List.pairwise_map.mpr (List.pairwise_lt_range.imp ?_)
  intro i j hij
  omega

/-- **A rearranged range has the same elements**, each as often as before. -/
theorem Rearranges.perm (h : Rearranges low high arr arr') :
    (elements arr' low high).Perm (elements arr low high) := by
  obtain ⟨σ, hσ, rfl⟩ := h
  have hnodup : (indices low high).Nodup := (indices_sorted low high).imp fun h => ne_of_lt h
  have hmem : ∀ k, k ∈ (indices low high).map σ ↔ k ∈ indices low high := by
    -- the permutation fixes what is outside, and so keeps what is inside
    have hinside : ∀ k, σ k ∈ indices low high ↔ k ∈ indices low high := by
      intro k
      rw [mem_indices, mem_indices]
      constructor
      · intro hin
        by_contra hout
        rw [hσ k (by omega)] at hin
        exact hout hin
      · intro hin
        by_contra hout
        have hfix := σ.injective (hσ (σ k) (by omega))
        rw [hfix] at hout
        exact hout hin
    intro k
    rw [List.mem_map]
    constructor
    · rintro ⟨a, ha, rfl⟩
      exact (hinside a).mpr ha
    · intro hk
      exact ⟨σ.symm k, (hinside _).mp (by rwa [Equiv.apply_symm_apply]), σ.apply_symm_apply k⟩
  have hindices := (List.perm_ext_iff_of_nodup (hnodup.map σ.injective) hnodup).mpr hmem
  rw [elements, ← List.map_map]
  exact hindices.map arr

end Lists

theorem SortedOn.pairwise {arr : ℤ → α} {low high : ℤ} (h : SortedOn arr low high) :
    (elements arr low high).Pairwise (· ≤ ·) := by
  refine List.pairwise_map.mpr ((indices_sorted low high).imp_of_mem ?_)
  intro a b ha hb hab
  exact h a b (mem_indices.mp ha).1 hab.le (mem_indices.mp hb).2

/-! ## What is read -/

section Congr

open Set

variable {lo hi : ℤ} {arr arr' : ℤ → α}

theorem swap_congr {β : Type*} {arr arr' : ℤ → β} (h : EqOn arr arr' (Icc lo hi)) {i j : ℤ}
    (hi' : i ∈ Icc lo hi) (hj : j ∈ Icc lo hi) :
    EqOn (swap arr i j) (swap arr' i j) (Icc lo hi) := by
  intro k hk
  rw [swap_apply, swap_apply, h hi', h hj, h hk]

theorem scan_congr (pivot : α) (n : ℕ) : ∀ {i j : ℤ} {arr arr' : ℤ → α}, lo ≤ i + 1 → i < j →
    j + n ≤ hi → EqOn arr arr' (Icc lo hi) →
      (scan pivot n i j arr).2 = (scan pivot n i j arr').2 ∧
        EqOn (scan pivot n i j arr).1 (scan pivot n i j arr').1 (Icc lo hi) := by
  induction n with
  | zero => exact fun _ _ _ h => ⟨rfl, h⟩
  | succ n ih =>
    intro i j arr arr' hlo hij hn h
    push_cast at hn
    rw [scan, scan, h (show j ∈ Icc lo hi from ⟨by omega, by omega⟩)]
    by_cases hlt : arr' j < pivot
    · rw [if_pos hlt, if_pos hlt]
      apply ih (by omega) (by omega) (by omega)
      exact swap_congr h ⟨by omega, by omega⟩ ⟨by omega, by omega⟩
    · rw [if_neg hlt, if_neg hlt]
      exact ih hlo (by omega) (by omega) h

theorem partition_congr {low high : ℤ} (hlt : low < high) (hlo : lo ≤ low) (hhi : high ≤ hi)
    (h : EqOn arr arr' (Icc lo hi)) :
    (partition arr low high).2 = (partition arr' low high).2 ∧
      EqOn (partition arr low high).1 (partition arr' low high).1 (Icc lo hi) := by
  obtain ⟨-, hplow, hphigh, -, -⟩ := partition_spec arr' hlt
  have hhigh : high ∈ Icc lo hi := ⟨by omega, hhi⟩
  obtain ⟨hplace, hscan⟩ := scan_congr (arr' high) (high - low).toNat (i := low - 1) (j := low)
    (by omega) (by omega) (by omega) h
  unfold partition at hplow hphigh ⊢
  simp only at hplow hphigh ⊢
  rw [h hhigh, hplace]
  exact ⟨rfl, swap_congr hscan ⟨by omega, by omega⟩ hhigh⟩

/-- **Quicksort reads only the range**: arrays that agree around the range still do. -/
theorem sort_congr (n : ℕ) : ∀ {low high : ℤ} {arr arr' : ℤ → α}, lo ≤ low → high ≤ hi →
    EqOn arr arr' (Icc lo hi) → EqOn (sort n arr low high) (sort n arr' low high) (Icc lo hi) := by
  induction n with
  | zero => exact fun _ _ h => h
  | succ n ih =>
    intro low high arr arr' hlo hhi h
    rw [sort, sort]
    by_cases hlt : low < high
    · obtain ⟨-, hplow, hphigh, -, -⟩ := partition_spec arr' hlt
      obtain ⟨hplace, hpart⟩ := partition_congr hlt hlo hhi h
      rw [if_pos hlt, if_pos hlt]
      simp only
      rw [hplace]
      exact ih (by omega) hhi (ih hlo (by omega) hpart)
    · rw [if_neg hlt, if_neg hlt]
      exact h

end Congr

/-! ## Subscripts -/

section Checked

open CheckedArray Machine

variable {β : Type*}

/-- `swap` with checked subscripts. -/
def swapChecked (b : Bounds) (arr : ℤ → β) (i j : ℤ) : Except OutOfBounds (ℤ → β) := do
  let t ← b.get arr i
  let a ← b.get arr j
  let arr ← b.set arr i a
  b.set arr j t

/-- `scan` with checked subscripts. -/
def scanChecked (b : Bounds) (pivot : α) :
    ℕ → ℤ → ℤ → (ℤ → α) → Except OutOfBounds ((ℤ → α) × ℤ)
  | 0, i, _, arr => .ok (arr, i)
  | n + 1, i, j, arr => do
    let a ← b.get arr j
    if a < pivot then
      let arr ← swapChecked b arr (i + 1) j
      scanChecked b pivot n (i + 1) (j + 1) arr
    else scanChecked b pivot n i (j + 1) arr

/-- `partition` with checked subscripts. -/
def partitionChecked (b : Bounds) (arr : ℤ → α) (low high : ℤ) :
    Except OutOfBounds ((ℤ → α) × ℤ) := do
  let pivot ← b.get arr high
  let r ← scanChecked b pivot (high - low).toNat (low - 1) low arr
  let arr ← swapChecked b r.1 (r.2 + 1) high
  .ok (arr, r.2 + 1)

/-- `sort` with checked subscripts. -/
def sortChecked (b : Bounds) : ℕ → (ℤ → α) → ℤ → ℤ → Except OutOfBounds (ℤ → α)
  | 0, arr, _, _ => .ok arr
  | n + 1, arr, low, high =>
    if low < high then do
      let r ← partitionChecked b arr low high
      let left ← sortChecked b n r.1 low (r.2 - 1)
      sortChecked b n left (r.2 + 1) high
    else .ok arr

variable {b : Bounds}

theorem swapChecked_eq {i j : ℤ} (hi : b.Has i) (hj : b.Has j) (arr : ℤ → β) :
    swapChecked b arr i j = .ok (swap arr i j) := by
  rw [swapChecked, Bounds.get_eq hi, ok_bind, Bounds.get_eq hj, ok_bind, Bounds.set_eq hi, ok_bind,
    Bounds.set_eq hj, swap]

/-- The scan reads the elements in front of the pivot, and swaps no element behind them. -/
theorem scanChecked_eq (pivot : α) (n : ℕ) : ∀ (i j : ℤ) (arr : ℤ → α),
    b.first ≤ i + 1 → i < j → j + n ≤ b.last →
      scanChecked b pivot n i j arr = .ok (scan pivot n i j arr) := by
  induction n with
  | zero => exact fun i j arr _ _ _ => rfl
  | succ n ih =>
    intro i j arr hfirst hij hlast
    push_cast at hlast
    have hj : b.Has j := ⟨by omega, by omega⟩
    have hi : b.Has (i + 1) := ⟨hfirst, by omega⟩
    rw [scanChecked, Bounds.get_eq hj, ok_bind, scan]
    by_cases hlt : arr j < pivot
    · rw [if_pos hlt, if_pos hlt, swapChecked_eq hi hj, ok_bind]
      exact ih (i + 1) (j + 1) _ (by omega) (by omega) (by omega)
    · rw [if_neg hlt, if_neg hlt]
      exact ih i (j + 1) arr hfirst (by omega) (by omega)

theorem partitionChecked_eq (arr : ℤ → α) {low high : ℤ} (h : low < high) (hlow : b.first ≤ low)
    (hhigh : high ≤ b.last) :
    partitionChecked b arr low high = .ok (partition arr low high) := by
  obtain ⟨-, hplow, hphigh, -, -⟩ := partition_spec arr h
  have hpivot : b.Has high := ⟨by omega, hhigh⟩
  have hplace : b.Has ((scan (arr high) (high - low).toNat (low - 1) low arr).2 + 1) :=
    ⟨hlow.trans hplow, hphigh.trans hhigh⟩
  rw [partitionChecked, Bounds.get_eq hpivot, ok_bind,
    scanChecked_eq _ _ _ _ _ (by omega) (by omega) (by omega), ok_bind,
    swapChecked_eq hplace hpivot, ok_bind, partition]

/-- **Quicksort stays in the range**: with subscripts that are checked against bounds around the
range it does the same. -/
theorem sortChecked_eq (n : ℕ) : ∀ (arr : ℤ → α) (low high : ℤ), b.first ≤ low → high ≤ b.last →
    sortChecked b n arr low high = .ok (sort n arr low high) := by
  induction n with
  | zero => exact fun arr low high _ _ => rfl
  | succ n ih =>
    intro arr low high hlow hhigh
    rw [sortChecked, sort]
    by_cases hlt : low < high
    · obtain ⟨-, hplow, hphigh, -, -⟩ := partition_spec arr hlt
      rw [if_pos hlt, if_pos hlt, partitionChecked_eq arr hlt hlow hhigh, ok_bind,
        ih _ _ _ hlow (by omega), ok_bind, ih _ _ _ (by omega) hhigh]
    · rw [if_neg hlt, if_neg hlt]

/-! ## Termination -/

/-- The scan moves the boundary up, and not beyond the elements that it reads. -/
theorem scanChecked_place {pivot : α} (n : ℕ) : ∀ {i j : ℤ} {arr : ℤ → α} {r : (ℤ → α) × ℤ},
    scanChecked b pivot n i j arr = .ok r → i ≤ r.2 ∧ r.2 ≤ i + n := by
  induction n with
  | zero =>
    intro i j arr r h
    cases h
    omega
  | succ n ih =>
    intro i j arr r h
    rw [scanChecked] at h
    obtain ⟨a, -, h⟩ := bind_eq_ok.mp h
    by_cases hlt : a < pivot
    · rw [if_pos hlt] at h
      obtain ⟨arr', -, h⟩ := bind_eq_ok.mp h
      have hr := ih h
      push_cast
      omega
    · rw [if_neg hlt] at h
      have hr := ih h
      push_cast
      omega

/-- A partition that is not stopped puts the pivot inside of the range, whatever the array is. -/
theorem partitionChecked_place {arr : ℤ → α} {low high : ℤ} {r : (ℤ → α) × ℤ} (hlt : low < high)
    (h : partitionChecked b arr low high = .ok r) : low ≤ r.2 ∧ r.2 ≤ high := by
  rw [partitionChecked] at h
  obtain ⟨pivot, -, h⟩ := bind_eq_ok.mp h
  obtain ⟨r', hscan, h⟩ := bind_eq_ok.mp h
  obtain ⟨arr', -, h⟩ := bind_eq_ok.mp h
  cases h
  have hr := scanChecked_place _ hscan
  simp only
  omega

/-- Sort a range, with checked subscripts and no bound on the depth of the recursion: both
halves are shorter than the range. -/
def sortRec (b : Bounds) (arr : ℤ → α) (low high : ℤ) : Except OutOfBounds (ℤ → α) :=
  if _ : low < high then
    match hr : partitionChecked b arr low high with
    | .error e => .error e
    | .ok r => do
      let left ← sortRec b r.1 low (r.2 - 1)
      sortRec b left (r.2 + 1) high
  else .ok arr
termination_by (high - low + 1).toNat
decreasing_by
  all_goals
    have hplace := partitionChecked_place ‹low < high› hr
    omega

/-- **The recursion comes to an end**, and a depth of the length of the range is enough. -/
theorem sortRec_eq (n : ℕ) : ∀ (arr : ℤ → α) (low high : ℤ), high - low < n →
    sortRec b arr low high = sortChecked b n arr low high := by
  induction n with
  | zero =>
    intro arr low high hn
    rw [sortRec, dif_neg (by push_cast at hn; omega), sortChecked]
  | succ n ih =>
    intro arr low high hn
    push_cast at hn
    rw [sortRec, sortChecked]
    by_cases hlt : low < high
    · rw [dif_pos hlt, if_pos hlt]
      split
      · next e hr => rw [hr, error_bind]
      · next r hr =>
        have hplace := partitionChecked_place hlt hr
        rw [hr, ok_bind, ih r.1 low (r.2 - 1) (by omega)]
        cases sortChecked b n r.1 low (r.2 - 1) with
        | error e => rfl
        | ok left => rw [ok_bind, ok_bind, ih left (r.2 + 1) high (by omega)]
    · rw [dif_neg hlt, if_neg hlt]

end Checked

end QuickSort
