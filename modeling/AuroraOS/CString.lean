/-
# C strings in memory

A library for strings that end in a NUL byte, in the byte memory of a machine with 32-bit
addresses: `strlen`, `strcpy` and `strncpy` as loops over the memory, and what they do to
a string that the place they write to does not touch.

A loop is given the number of rounds after which the addresses start again.
-/
import AuroraOS.Memory

namespace Memory

variable {m m' : Mem} {a b src dst : BitVec 32} {s : List UInt8}

theorem add_ofNat_succ (a : BitVec 32) (i : ℕ) :
    a + BitVec.ofNat 32 (i + 1) = a + BitVec.ofNat 32 i + 1#32 := by
  rw [BitVec.ofNat_add, BitVec.add_assoc]

theorem add_ofNat_add (a : BitVec 32) (i j : ℕ) :
    a + BitVec.ofNat 32 (i + j) = a + BitVec.ofNat 32 i + BitVec.ofNat 32 j := by
  rw [BitVec.ofNat_add, BitVec.add_assoc]

/-! ## Strings -/

/-- The bytes of a string, none of them NUL, lie at an address, and a NUL behind them. -/
def HasString (m : Mem) : BitVec 32 → List UInt8 → Prop
  | a, [] => m a = 0
  | a, c :: cs => c ≠ 0 ∧ m a = c ∧ HasString m (a + 1#32) cs

/-- A string depends on its own bytes and its NUL. -/
theorem HasString.congr (s : List UInt8) : ∀ {a : BitVec 32}, HasString m a s →
    (∀ i ≤ s.length, m' (a + BitVec.ofNat 32 i) = m (a + BitVec.ofNat 32 i)) →
      HasString m' a s := by
  induction s with
  | nil =>
    intro a h hm
    have h0 := hm 0 (Nat.le_refl 0)
    rw [BitVec.add_zero] at h0
    exact h0.trans h
  | cons c cs ih =>
    intro a h hm
    have h0 := hm 0 (Nat.zero_le _)
    rw [BitVec.add_zero] at h0
    refine ⟨h.1, h0.trans h.2.1, ih h.2.2 fun i hi => ?_⟩
    rw [BitVec.add_assoc, ← BitVec.ofNat_add, Nat.add_comm 1 i]
    exact hm (i + 1) (Nat.succ_le_succ hi)

theorem HasString.ne_zero (h : HasString m a s) : ∀ c ∈ s, c ≠ 0 := by
  induction s generalizing a with
  | nil =>
    intro c hc
    exact absurd hc List.not_mem_nil
  | cons d ds ih =>
    intro c hc
    rcases List.mem_cons.mp hc with rfl | hc
    · exact h.1
    · exact ih h.2.2 c hc

/-- The tail of a string, from any of its bytes on. -/
theorem HasString.drop (s : List UInt8) : ∀ {a : BitVec 32} {i : ℕ},
    HasString m a s → i ≤ s.length →
    HasString m (a + BitVec.ofNat 32 i) (s.drop i) := by
  induction s with
  | nil =>
    intro a i h hi
    obtain rfl : i = 0 := Nat.le_zero.mp hi
    rw [BitVec.add_zero]
    exact h
  | cons c cs ih =>
    intro a i h hi
    cases i with
    | zero =>
      rw [BitVec.add_zero]
      exact h
    | succ i =>
      have hnext := ih h.2.2 (Nat.le_of_succ_le_succ hi)
      rw [BitVec.add_assoc, ← BitVec.ofNat_add, Nat.add_comm 1 i] at hnext
      exact hnext

/-- A string that is cut short by a NUL. -/
theorem HasString.cut (s : List UInt8) : ∀ {a : BitVec 32} {c : UInt8} {t : List UInt8},
    HasString m a (s ++ c :: t) → s.length < 2 ^ 32 →
    HasString (Function.update m (a + BitVec.ofNat 32 s.length) 0) a s := by
  induction s with
  | nil =>
    intro a c t _ _
    show Function.update m (a + BitVec.ofNat 32 0) 0 a = 0
    rw [BitVec.add_zero, Function.update_self]
  | cons d ds ih =>
    intro a c t h hlen
    rw [List.length_cons] at hlen ⊢
    have hne : a ≠ a + BitVec.ofNat 32 (ds.length + 1) := by
      intro he
      have hzero := add_ofNat_injective (i := 0) (by omega) hlen ((BitVec.add_zero a).trans he)
      omega
    have hrest := ih h.2.2 (by omega)
    rw [BitVec.add_assoc, ← BitVec.ofNat_add, Nat.add_comm 1] at hrest
    exact ⟨h.1, (Function.update_of_ne hne _ _).trans h.2.1, hrest⟩

/-- Two strings at one address are the same. -/
theorem HasString.unique {t : List UInt8} (h : HasString m a s) (h' : HasString m a t) : s = t := by
  induction s generalizing a t with
  | nil =>
    cases t with
    | nil => rfl
    | cons d ds => exact absurd (h'.2.1.symm.trans h) h'.1
  | cons c cs ih =>
    cases t with
    | nil => exact absurd (h.2.1.symm.trans h') h.1
    | cons d ds => rw [← h.2.1, ← h'.2.1, ih h.2.2 h'.2.2]

/-- **A stored string is a string.** -/
theorem hasString_storeBytes (s : List UInt8) : ∀ {a : BitVec 32} {m : Mem}, (∀ c ∈ s, c ≠ 0) →
    s.length < 2 ^ 32 → HasString (storeBytes (s ++ [0]) a m) a s := by
  induction s with
  | nil =>
    intro a m _ _
    exact Function.update_self a 0 m
  | cons c cs ih =>
    intro a m hs hlen
    rw [List.length_cons] at hlen
    have hstep : storeBytes (c :: cs ++ [0]) a m =
        storeBytes (cs ++ [0]) (a + 1#32) (Function.update m a c) := rfl
    rw [hstep]
    refine ⟨hs c List.mem_cons_self, ?_, ih (fun d hd => hs d (List.mem_cons_of_mem c hd))
      (by omega)⟩
    have hfar : (cs ++ [0]).length ≤ (a - (a + 1#32)).toNat := by
      rw [List.length_append, List.length_singleton]
      bv_omega
    rw [storeBytes_of_le _ hfar, Function.update_self]

/-! ## `strlen` -/

/-- The loop of `strlen`. -/
def strlenLoop (m : Mem) (s : BitVec 32) : ℕ → ℕ → ℕ
  | 0, len => len
  | n + 1, len => if m (s + BitVec.ofNat 32 len) = 0 then len else strlenLoop m s n (len + 1)

/-- `strlen`. -/
@[irreducible] def strlen (m : Mem) (s : BitVec 32) : ℕ := strlenLoop m s (2 ^ 32) 0

theorem strlenLoop_eq (t : List UInt8) : ∀ {n len : ℕ},
    HasString m (a + BitVec.ofNat 32 len) t → t.length < n →
      strlenLoop m a n len = len + t.length := by
  induction t with
  | nil =>
    intro n len h hn
    obtain ⟨n, rfl⟩ := Nat.exists_eq_succ_of_ne_zero (Nat.ne_of_gt hn)
    exact if_pos h
  | cons c cs ih =>
    intro n len h hn
    obtain ⟨n, rfl⟩ := Nat.exists_eq_succ_of_ne_zero (Nat.ne_of_gt (Nat.zero_lt_of_lt hn))
    have hne : m (a + BitVec.ofNat 32 len) ≠ 0 := by
      rw [h.2.1]
      exact h.1
    rw [strlenLoop, if_neg hne, ih (by rw [add_ofNat_succ]; exact h.2.2)
      (Nat.lt_of_succ_lt_succ hn),
      List.length_cons]
    omega

/-- **`strlen`** is the length of the string. -/
theorem strlen_eq (h : HasString m a s) (hs : s.length < 2 ^ 32) : strlen m a = s.length := by
  have h0 : HasString m (a + BitVec.ofNat 32 0) s := by
    rw [BitVec.add_zero]
    exact h
  rw [strlen, strlenLoop_eq s h0 hs, Nat.zero_add]

theorem strlenLoop_mono (n : ℕ) : ∀ {k len : ℕ}, k ≤ len → k ≤ strlenLoop m a n len := by
  induction n with
  | zero =>
    intro k len h
    exact h
  | succ n ih =>
    intro k len h
    rw [strlenLoop]
    split
    · exact h
    · exact ih (Nat.le_succ_of_le h)

/-- The bytes before the end of a string are not NUL, so `strlen` counts them. -/
theorem strlenLoop_ge {k : ℕ} (n : ℕ) : ∀ {len : ℕ}, len ≤ k → k ≤ len + n →
    (∀ i < k, m (a + BitVec.ofNat 32 i) ≠ 0) → k ≤ strlenLoop m a n len := by
  induction n with
  | zero =>
    intro len _ hk _
    exact hk
  | succ n ih =>
    intro len hlen hk hne
    rcases Nat.eq_or_lt_of_le hlen with heq | hlt
    · subst heq
      rw [strlenLoop]
      split
      · exact Nat.le_refl len
      · exact strlenLoop_mono n (Nat.le_succ len)
    · rw [strlenLoop, if_neg (hne len hlt)]
      exact ih hlt (by omega) hne

theorem strlen_ge {k : ℕ} (hk : k ≤ 2 ^ 32) (hne : ∀ i < k, m (a + BitVec.ofNat 32 i) ≠ 0) :
    k ≤ strlen m a := by
  rw [strlen]
  exact strlenLoop_ge (2 ^ 32) (Nat.zero_le k) (by omega) hne

/-! ## `strcpy` -/

/-- The loop of `strcpy`. -/
def strcpyLoop (dst src : BitVec 32) : ℕ → ℕ → Mem → Mem
  | 0, _, m => m
  | n + 1, i, m =>
    if m (src + BitVec.ofNat 32 i) = 0 then Function.update m (dst + BitVec.ofNat 32 i) 0
    else strcpyLoop dst src n (i + 1)
      (Function.update m (dst + BitVec.ofNat 32 i) (m (src + BitVec.ofNat 32 i)))

/-- `strcpy`. -/
@[irreducible] def strcpy (dst src : BitVec 32) (m : Mem) : Mem := strcpyLoop dst src (2 ^ 32) 0 m

/-- The place of a copy does not touch its source. -/
def Apart (dst src : BitVec 32) (n k : ℕ) : Prop :=
  ∀ i < n, ∀ j < k, dst + BitVec.ofNat 32 i ≠ src + BitVec.ofNat 32 j

theorem Apart.succ {i n k : ℕ}
    (h : Apart (dst + BitVec.ofNat 32 i) (src + BitVec.ofNat 32 i) (n + 1) (k + 1)) :
    Apart (dst + BitVec.ofNat 32 (i + 1)) (src + BitVec.ofNat 32 (i + 1)) n k := by
  intro j hj l hl
  have hjl := h (1 + j) (by omega) (1 + l) (by omega)
  rw [← add_ofNat_add, ← add_ofNat_add, ← Nat.add_assoc, ← Nat.add_assoc, add_ofNat_add,
    add_ofNat_add src] at hjl
  exact hjl

/-- The rest of the string is still there when its first byte has been copied. -/
theorem HasString.copied {c : UInt8} {cs : List UInt8} {i n : ℕ}
    (h : HasString m (src + BitVec.ofNat 32 i) (c :: cs))
    (hd : Apart (dst + BitVec.ofNat 32 i) (src + BitVec.ofNat 32 i) (n + 1) (cs.length + 1 + 1)) :
    HasString (Function.update m (dst + BitVec.ofNat 32 i) c)
      (src + BitVec.ofNat 32 (i + 1)) cs := by
  have hnext : HasString m (src + BitVec.ofNat 32 (i + 1)) cs := by
    rw [add_ofNat_succ]
    exact h.2.2
  refine hnext.congr cs fun k hk => Function.update_of_ne ?_ _ _
  have hk' := hd 0 (Nat.succ_pos n) (1 + k) (by omega)
  rw [BitVec.add_zero, ← add_ofNat_add, ← Nat.add_assoc, add_ofNat_add] at hk'
  exact fun he => hk' he.symm

/-- The induction is on what is left of the string. -/
theorem strcpyLoop_eq (t : List UInt8) : ∀ {n i : ℕ} {m : Mem},
    HasString m (src + BitVec.ofNat 32 i) t → t.length < n →
    Apart (dst + BitVec.ofNat 32 i) (src + BitVec.ofNat 32 i) (t.length + 1) (t.length + 1) →
    strcpyLoop dst src n i m = storeBytes (t ++ [0]) (dst + BitVec.ofNat 32 i) m := by
  induction t with
  | nil =>
    intro n i m h hn _
    obtain ⟨n, rfl⟩ := Nat.exists_eq_succ_of_ne_zero (Nat.ne_of_gt hn)
    exact if_pos h
  | cons c cs ih =>
    intro n i m h hn hd
    obtain ⟨n, rfl⟩ := Nat.exists_eq_succ_of_ne_zero (Nat.ne_of_gt (Nat.zero_lt_of_lt hn))
    have hne : m (src + BitVec.ofNat 32 i) ≠ 0 := by
      rw [h.2.1]
      exact h.1
    rw [strcpyLoop, if_neg hne, h.2.1, ih (h.copied hd) (Nat.lt_of_succ_lt_succ hn) hd.succ,
      add_ofNat_succ]
    rfl

/-- **`strcpy`** stores the string and its NUL. -/
theorem strcpy_eq (h : HasString m src s) (hs : s.length < 2 ^ 32)
    (hd : Apart dst src (s.length + 1) (s.length + 1)) :
    strcpy dst src m = storeBytes (s ++ [0]) dst m := by
  have h0 : HasString m (src + BitVec.ofNat 32 0) s := by
    rw [BitVec.add_zero]
    exact h
  rw [strcpy, strcpyLoop_eq s h0 hs (by rw [BitVec.add_zero, BitVec.add_zero]; exact hd),
    BitVec.add_zero]

/-! ## `strncpy` -/

/-- The second loop of `strncpy`, with `n` bytes left to fill. -/
def fillLoop (dst : BitVec 32) : ℕ → ℕ → Mem → Mem
  | 0, _, m => m
  | n + 1, i, m => fillLoop dst n (i + 1) (Function.update m (dst + BitVec.ofNat 32 i) 0)

/-- The first loop of `strncpy`, with `n` bytes left to write. -/
def strncpyLoop (dst src : BitVec 32) : ℕ → ℕ → Mem → Mem
  | 0, _, m => m
  | n + 1, i, m =>
    if m (src + BitVec.ofNat 32 i) = 0 then fillLoop dst (n + 1) i m
    else strncpyLoop dst src n (i + 1)
      (Function.update m (dst + BitVec.ofNat 32 i) (m (src + BitVec.ofNat 32 i)))

/-- `strncpy`. -/
@[irreducible] def strncpy (dst src : BitVec 32) (n : ℕ) (m : Mem) : Mem :=
  strncpyLoop dst src n 0 m

theorem fillLoop_eq (n : ℕ) : ∀ (i : ℕ) (m : Mem),
    fillLoop dst n i m = storeBytes (List.replicate n 0) (dst + BitVec.ofNat 32 i) m := by
  induction n with
  | zero =>
    intro i m
    rfl
  | succ n ih =>
    intro i m
    rw [fillLoop, ih, add_ofNat_succ]
    rfl

theorem strncpyLoop_eq (t : List UInt8) : ∀ {n i : ℕ} {m : Mem},
    HasString m (src + BitVec.ofNat 32 i) t → t.length < n →
    Apart (dst + BitVec.ofNat 32 i) (src + BitVec.ofNat 32 i) n (t.length + 1) →
    strncpyLoop dst src n i m =
      storeBytes (t ++ List.replicate (n - t.length) 0) (dst + BitVec.ofNat 32 i) m := by
  induction t with
  | nil =>
    intro n i m h hn _
    obtain ⟨n, rfl⟩ := Nat.exists_eq_succ_of_ne_zero (Nat.ne_of_gt hn)
    have h0 : m (src + BitVec.ofNat 32 i) = 0 := h
    rw [strncpyLoop, if_pos h0, fillLoop_eq]
    rfl
  | cons c cs ih =>
    intro n i m h hn hd
    obtain ⟨n, rfl⟩ := Nat.exists_eq_succ_of_ne_zero (Nat.ne_of_gt (Nat.zero_lt_of_lt hn))
    have hne : m (src + BitVec.ofNat 32 i) ≠ 0 := by
      rw [h.2.1]
      exact h.1
    rw [strncpyLoop, if_neg hne, h.2.1, ih (h.copied hd) (Nat.lt_of_succ_lt_succ hn) hd.succ,
      add_ofNat_succ,
      List.length_cons, Nat.succ_sub_succ]
    rfl

/-- **`strncpy`** of a string that fits stores it and pads it with NULs. -/
theorem strncpy_eq {n : ℕ} (h : HasString m src s) (hs : s.length < n)
    (hd : Apart dst src n (s.length + 1)) :
    strncpy dst src n m = storeBytes (s ++ List.replicate (n - s.length) 0) dst m := by
  have h0 : HasString m (src + BitVec.ofNat 32 0) s := by
    rw [BitVec.add_zero]
    exact h
  rw [strncpy, strncpyLoop_eq s h0 hs (by rw [BitVec.add_zero, BitVec.add_zero]; exact hd),
    BitVec.add_zero]

end Memory
