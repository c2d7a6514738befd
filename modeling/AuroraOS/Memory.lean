/-
# Bytes and words in memory

A library for the memory of a little-endian machine with 32-bit addresses: storing and
loading a word, storing bytes one behind the other, and pushing words on a stack that
grows down.

Addresses wrap, so the distance of one address above another is a number below 2^32, and
a word or a stack covers the addresses up to a certain distance above its lowest one.
-/
import Mathlib

namespace Memory

/-- A memory of bytes. -/
abbrev Mem := BitVec 32 → UInt8

/-- The `i`-th byte of a word. -/
def byteOf (w : BitVec 32) (i : ℕ) : UInt8 := UInt8.ofNat (w.toNat / 256 ^ i)

/-- The word stored at an address, lowest byte first. -/
def store (m : Mem) (a w : BitVec 32) : Mem := fun b =>
  if (b - a).toNat < 4 then byteOf w (b - a).toNat else m b

/-- The word at an address. -/
def load (m : Mem) (a : BitVec 32) : BitVec 32 :=
  BitVec.ofNat 32 ((m a).toNat + (m (a + 1#32)).toNat * 256 + (m (a + 2#32)).toNat * 256 ^ 2 +
    (m (a + 3#32)).toNat * 256 ^ 3)

variable {m m' : Mem} {a b w : BitVec 32}

/-! ## Words -/

theorem toNat_add_sub (a : BitVec 32) {i : ℕ} (h : i < 2 ^ 32) :
    (a + BitVec.ofNat 32 i - a).toNat = i := by
  rw [BitVec.add_comm, BitVec.add_sub_cancel, BitVec.toNat_ofNat, Nat.mod_eq_of_lt h]

theorem add_ofNat_injective {i j : ℕ} (hi : i < 2 ^ 32) (hj : j < 2 ^ 32)
    (h : a + BitVec.ofNat 32 i = a + BitVec.ofNat 32 j) : i = j := by
  rw [← toNat_add_sub a hi, h, toNat_add_sub a hj]

/-- A stored byte. -/
theorem store_at (m : Mem) (a w : BitVec 32) {i : ℕ} (h : i < 4) :
    store m a w (a + BitVec.ofNat 32 i) = byteOf w i := by
  have hi := toNat_add_sub a (i := i) (by omega)
  rw [store, hi, if_pos h]

/-- The rest of the memory is unchanged. -/
theorem store_of_le (h : 4 ≤ (b - a).toNat) : store m a w b = m b :=
  if_neg (Nat.not_lt.mpr h)

/-- A word is determined by its four bytes. -/
theorem load_congr (h : ∀ i < 4, m (a + BitVec.ofNat 32 i) = m' (a + BitVec.ofNat 32 i)) :
    load m a = load m' a := by
  have h0 := h 0 (by omega)
  have h1 := h 1 (by omega)
  have h2 := h 2 (by omega)
  have h3 := h 3 (by omega)
  rw [BitVec.add_zero] at h0
  rw [load, load, h0, h1, h2, h3]

/-- **A word that has been stored is loaded again.** -/
theorem load_store (m : Mem) (a w : BitVec 32) : load (store m a w) a = w := by
  have h0 := store_at m a w (i := 0) (by omega)
  have h1 := store_at m a w (i := 1) (by omega)
  have h2 := store_at m a w (i := 2) (by omega)
  have h3 := store_at m a w (i := 3) (by omega)
  rw [BitVec.add_zero] at h0
  apply BitVec.eq_of_toNat_eq
  have hw := w.isLt
  rw [load, h0, h1, h2, h3, BitVec.toNat_ofNat]
  simp only [byteOf, UInt8.toNat_ofNat']
  omega

/-! ## Bytes -/

/-- The bytes of a list stored from an address on. -/
def storeBytes : List UInt8 → BitVec 32 → Mem → Mem
  | [], _, m => m
  | c :: cs, a, m => storeBytes cs (a + 1#32) (Function.update m a c)

/-- Bytes stored in two parts. -/
theorem storeBytes_append (xs ys : List UInt8) : ∀ (a : BitVec 32) (m : Mem),
    storeBytes (xs ++ ys) a m = storeBytes ys (a + BitVec.ofNat 32 xs.length)
      (storeBytes xs a m) := by
  induction xs with
  | nil =>
    intro a m
    show storeBytes ys a m = storeBytes ys (a + 0#32) m
    rw [BitVec.add_zero]
  | cons x xs ih =>
    intro a m
    show storeBytes (xs ++ ys) (a + 1#32) (Function.update m a x) = _
    have haddr : a + 1#32 + BitVec.ofNat 32 xs.length = a + BitVec.ofNat 32 (xs.length + 1) := by
      rw [BitVec.add_assoc, ← BitVec.ofNat_add, Nat.add_comm 1]
    rw [ih, haddr]
    rfl

/-- **Nothing else changes** when bytes are stored. -/
theorem storeBytes_of_le (cs : List UInt8) : ∀ {a b : BitVec 32} {m : Mem},
    cs.length ≤ (b - a).toNat → storeBytes cs a m b = m b := by
  induction cs with
  | nil =>
    intro a b m _
    rfl
  | cons c cs ih =>
    intro a b m h
    rw [List.length_cons] at h
    have hne : b ≠ a := by
      rintro rfl
      simp at h
    show storeBytes cs (a + 1#32) (Function.update m a c) b = m b
    rw [ih (by bv_omega), Function.update_of_ne hne]

/-- Behind a store, a byte depends on what it was before. -/
theorem storeBytes_congr (cs : List UInt8) : ∀ {a b : BitVec 32} {m m' : Mem}, m b = m' b →
    storeBytes cs a m b = storeBytes cs a m' b := by
  induction cs with
  | nil =>
    intro a b m m' h
    exact h
  | cons c cs ih =>
    intro a b m m' h
    refine ih ?_
    by_cases hb : b = a
    · rw [hb, Function.update_self, Function.update_self]
    · rw [Function.update_of_ne hb, Function.update_of_ne hb]
      exact h

/-- **The stored bytes.** -/
theorem storeBytes_at (cs : List UInt8) : ∀ (a : BitVec 32) (m : Mem) {i : ℕ} (h : i < cs.length),
    cs.length ≤ 2 ^ 32 → storeBytes cs a m (a + BitVec.ofNat 32 i) = cs[i] := by
  induction cs with
  | nil =>
    intro a m i h
    exact absurd h (Nat.not_lt_zero i)
  | cons c cs ih =>
    intro a m i h hlen
    rw [List.length_cons] at h hlen
    show storeBytes cs (a + 1#32) (Function.update m a c) _ = _
    cases i with
    | zero =>
      rw [BitVec.add_zero, storeBytes_of_le cs (by bv_omega), Function.update_self,
        List.getElem_cons_zero]
    | succ i =>
      have haddr : a + BitVec.ofNat 32 (i + 1) = a + 1#32 + BitVec.ofNat 32 i := by
        rw [BitVec.add_assoc, ← BitVec.ofNat_add, Nat.add_comm 1]
      rw [haddr, ih (a + 1#32) _ (Nat.lt_of_succ_lt_succ h) (by omega), List.getElem_cons_succ]

/-! ## Offsets in a region -/

/-- The offset of an address in a part of a region. -/
theorem sub_add_ofNat_toNat {i : ℕ} (hi : i < 2 ^ 32) (hb : i ≤ (b - a).toNat) :
    (b - (a + BitVec.ofNat 32 i)).toNat = (b - a).toNat - i := by
  have hsplit : b - (a + BitVec.ofNat 32 i) = b - a - BitVec.ofNat 32 i :=
    (BitVec.sub_sub _ _ _).symm
  have hi' : (BitVec.ofNat 32 i).toNat = i := Nat.mod_eq_of_lt hi
  rw [hsplit, BitVec.toNat_sub_of_le (by rw [BitVec.le_def, hi']; exact hb), hi']

theorem sub_add_ofNat_toNat_of_lt {i : ℕ} (hi : i < 2 ^ 32) (hb : (b - a).toNat < i) :
    (b - (a + BitVec.ofNat 32 i)).toNat = (b - a).toNat + 2 ^ 32 - i := by
  have hsplit : b - (a + BitVec.ofNat 32 i) = b - a - BitVec.ofNat 32 i :=
    (BitVec.sub_sub _ _ _).symm
  have hi' : (BitVec.ofNat 32 i).toNat = i := Nat.mod_eq_of_lt hi
  rw [hsplit, BitVec.toNat_sub, hi']
  have := (b - a).isLt
  omega

/-- Bytes stored in a part of a region leave the rest of it alone. -/
theorem storeBytes_offset (cs : List UInt8) {i : ℕ} (hi : i + cs.length ≤ 2 ^ 32)
    (hb : (b - a).toNat < i ∨ i + cs.length ≤ (b - a).toNat) :
    storeBytes cs (a + BitVec.ofNat 32 i) m b = m b := by
  have hlt := (b - a).isLt
  apply storeBytes_of_le
  rcases hb with hb | hb
  · by_cases hi' : i < 2 ^ 32
    · rw [sub_add_ofNat_toNat_of_lt hi' hb]
      omega
    · omega
  · rw [sub_add_ofNat_toNat (by omega) (by omega)]
    omega

/-- A word stored in a region leaves the rest of it alone. -/
theorem store_offset {i : ℕ} (hi : i + 4 ≤ 2 ^ 32)
    (hb : (b - a).toNat < i ∨ i + 4 ≤ (b - a).toNat) :
    store m (a + BitVec.ofNat 32 i) w b = m b := by
  have hlt := (b - a).isLt
  apply store_of_le
  rcases hb with hb | hb
  · rw [sub_add_ofNat_toNat_of_lt (by omega) hb]
    omega
  · rw [sub_add_ofNat_toNat (by omega) (by omega)]
    omega

/-- A word of a region is determined by its bytes. -/
theorem load_offset {i : ℕ} (hi : i + 4 ≤ 2 ^ 32)
    (h : ∀ b : BitVec 32, i ≤ (b - a).toNat → (b - a).toNat < i + 4 → m b = m' b) :
    load m (a + BitVec.ofNat 32 i) = load m' (a + BitVec.ofNat 32 i) := by
  refine load_congr fun k hk => h _ ?_ ?_
  all_goals
    rw [BitVec.add_assoc, ← BitVec.ofNat_add, toNat_add_sub a (by omega)]
    omega

/-! ## Stacks -/

/-- Push one word: the stack pointer goes down first. -/
def push (s : BitVec 32 × Mem) (w : BitVec 32) : BitVec 32 × Mem :=
  (s.1 - 4, store s.2 (s.1 - 4) w)

/-- Push the words of a list, the first one first. -/
def pushAll (s : BitVec 32 × Mem) (ws : List (BitVec 32)) : BitVec 32 × Mem := ws.foldl push s

variable {s : BitVec 32 × Mem} {ws : List (BitVec 32)}

/-- The stack pointer behind the pushes. -/
theorem pushAll_pointer (ws : List (BitVec 32)) :
    ∀ s : BitVec 32 × Mem, (pushAll s ws).1 = s.1 - BitVec.ofNat 32 (4 * ws.length) := by
  induction ws with
  | nil =>
    intro s
    simp [pushAll]
  | cons w ws ih =>
    intro s
    show (pushAll (push s w) ws).1 = _
    rw [ih, List.length_cons, Nat.mul_succ, BitVec.ofNat_add, push]
    show s.1 - 4 - _ = s.1 - (_ + 4)
    rw [BitVec.sub_sub, BitVec.add_comm]

/-- **Pushes leave everything above alone.** -/
theorem pushAll_above (ws : List (BitVec 32)) :
    ∀ {s : BitVec 32 × Mem} {b : BitVec 32}, 4 * ws.length ≤ (b - (pushAll s ws).1).toNat →
      (pushAll s ws).2 b = s.2 b := by
  induction ws with
  | nil =>
    intro s b _
    rfl
  | cons w ws ih =>
    intro s b h
    rw [List.length_cons] at h
    have hstep : pushAll s (w :: ws) = pushAll (push s w) ws := rfl
    rw [hstep] at h ⊢
    rw [ih (by omega)]
    apply store_of_le
    rw [pushAll_pointer, push] at h
    show 4 ≤ (b - (s.1 - 4)).toNat
    -- the stack pointer behind the pushes is `4 * ws.length` below the stored word
    bv_omega

/-- **A pushed word can be loaded** above the words that have been pushed after it. -/
theorem load_pushAll (s : BitVec 32 × Mem) (pre : List (BitVec 32)) (w : BitVec 32)
    {post : List (BitVec 32)} (h : 4 * post.length + 4 ≤ 2 ^ 32) :
    load (pushAll s (pre ++ w :: post)).2
      ((pushAll s (pre ++ w :: post)).1 + BitVec.ofNat 32 (4 * post.length)) = w := by
  have hsplit : pushAll s (pre ++ w :: post) = pushAll (push (pushAll s pre) w) post := by
    rw [pushAll, List.foldl_append, List.foldl_cons]
    rfl
  rw [hsplit]
  set t := push (pushAll s pre) w with ht
  have haddr : (pushAll t post).1 + BitVec.ofNat 32 (4 * post.length) = t.1 := by
    rw [pushAll_pointer, BitVec.sub_add_cancel]
  have hframe : ∀ i < 4, (pushAll t post).2 (t.1 + BitVec.ofNat 32 i) =
      t.2 (t.1 + BitVec.ofNat 32 i) := by
    intro i hi
    apply pushAll_above
    rw [← haddr, BitVec.add_assoc, ← BitVec.ofNat_add, toNat_add_sub _ (by omega)]
    omega
  rw [haddr, load_congr hframe, ht]
  exact load_store _ _ _

end Memory
