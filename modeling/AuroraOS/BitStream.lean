/-
# Streams of bits

A library for data that is read bit by bit.  The bits of a list of bytes are counted from the
lowest bit of the first byte on; numbers stand in such a stream with their lowest bit first, or
with their highest bit first.
-/
import Mathlib

namespace BitStream

/-! ## Numbers as words -/

/-- The lowest `n` bits of a number, lowest bit first. -/
def lsb : ℕ → ℕ → List Bool
  | 0, _ => []
  | n + 1, v => v.testBit 0 :: lsb n (v / 2)

/-- The number with these bits, lowest bit first. -/
def ofLsb : List Bool → ℕ
  | [] => 0
  | b :: w => b.toNat + 2 * ofLsb w

/-- The lowest `n` bits of a number, highest bit first. -/
def msb : ℕ → ℕ → List Bool
  | 0, _ => []
  | n + 1, v => v.testBit n :: msb n v

/-- The number with these bits, highest bit first. -/
def ofMsb : List Bool → ℕ
  | [] => 0
  | b :: w => b.toNat * 2 ^ w.length + ofMsb w

@[simp] theorem length_lsb (n v : ℕ) : (lsb n v).length = n := by
  induction n generalizing v with
  | zero => rfl
  | succ n ih => rw [lsb, List.length_cons, ih]

@[simp] theorem length_msb (n v : ℕ) : (msb n v).length = n := by
  induction n with
  | zero => rfl
  | succ n ih => rw [msb, List.length_cons, ih]

/-- **A number is read back from its lowest bits.** -/
theorem ofLsb_lsb (n v : ℕ) : ofLsb (lsb n v) = v % 2 ^ n := by
  induction n generalizing v with
  | zero => rw [pow_zero, Nat.mod_one]; rfl
  | succ n ih =>
    have hmod : v % 2 ^ (n + 1) = v % 2 + 2 * (v / 2 % 2 ^ n) := by
      rw [pow_succ', Nat.mod_mul]
    rw [lsb, ofLsb, ih, hmod, Nat.testBit_zero]
    rcases Nat.mod_two_eq_zero_or_one v with h | h <;> simp [h]

theorem ofLsb_lt (w : List Bool) : ofLsb w < 2 ^ w.length := by
  induction w with
  | nil => exact Nat.one_pos
  | cons b w ih =>
    have hb := b.toNat_le
    rw [ofLsb, List.length_cons, pow_succ]
    omega

/-- The bits of a number that is written lowest bit first. -/
theorem testBit_ofLsb (w : List Bool) (i : ℕ) : (ofLsb w).testBit i = w.getD i false := by
  induction w generalizing i with
  | nil => rw [ofLsb, Nat.zero_testBit, List.getD_nil]
  | cons b w ih =>
    cases i with
    | zero =>
      rw [ofLsb, Nat.testBit_zero, List.getD_cons_zero]
      cases b <;> simp [Nat.add_mod]
    | succ i =>
      have hdiv : (b.toNat + 2 * ofLsb w) / 2 = ofLsb w := by
        have hb := b.toNat_le
        omega
      rw [ofLsb, Nat.testBit_succ, hdiv, ih, List.getD_cons_succ]

theorem getElem?_lsb (n v i : ℕ) : (lsb n v)[i]? = if i < n then some (v.testBit i) else none := by
  induction n generalizing v i with
  | zero => rfl
  | succ n ih =>
    cases i with
    | zero => simp [lsb]
    | succ i => rw [lsb, List.getElem?_cons_succ, ih, Nat.testBit_succ]; simp

theorem getElem?_msb (n v i : ℕ) :
    (msb n v)[i]? = if i < n then some (v.testBit (n - i - 1)) else none := by
  induction n generalizing i with
  | zero => rfl
  | succ n ih =>
    cases i with
    | zero => simp [msb]
    | succ i =>
      rw [msb, List.getElem?_cons_succ, ih, show n + 1 - (i + 1) - 1 = n - i - 1 by omega]
      simp

theorem msb_mod {n v : ℕ} : msb n (v % 2 ^ n) = msb n v := by
  apply List.ext_getElem?
  intro i
  rw [getElem?_msb, getElem?_msb, Nat.testBit_mod_two_pow]
  split_ifs with h
  · rw [decide_eq_true (by omega), Bool.true_and]
  · rfl

theorem ofMsb_lt (w : List Bool) : ofMsb w < 2 ^ w.length := by
  induction w with
  | nil => exact Nat.one_pos
  | cons b w ih =>
    have hb : b.toNat * 2 ^ w.length ≤ 1 * 2 ^ w.length := Nat.mul_le_mul_right _ b.toNat_le
    rw [ofMsb, List.length_cons, pow_succ]
    omega

/-- **A number is read back from its bits, highest bit first.** -/
theorem ofMsb_msb {n v : ℕ} (h : v < 2 ^ n) : ofMsb (msb n v) = v := by
  have hmod : ∀ n, ofMsb (msb n v) = v % 2 ^ n := by
    intro n
    induction n with
    | zero => rw [pow_zero, Nat.mod_one]; rfl
    | succ n ih =>
      rw [msb, ofMsb, length_msb, ih, Nat.mod_pow_succ, Nat.testBit_eq_decide_div_mod_eq]
      rcases Nat.mod_two_eq_zero_or_one (v / 2 ^ n) with h | h <;> simp [h, Nat.add_comm]
  rw [hmod, Nat.mod_eq_of_lt h]

theorem ofMsb_append (u w : List Bool) : ofMsb (u ++ w) = ofMsb u * 2 ^ w.length + ofMsb w := by
  induction u with
  | nil => rw [List.nil_append, ofMsb, Nat.zero_mul, Nat.zero_add]
  | cons b u ih =>
    rw [List.cons_append, ofMsb, ih, ofMsb, List.length_append, pow_add]
    ring

theorem ofMsb_injective {u w : List Bool} (hlen : u.length = w.length)
    (h : ofMsb u = ofMsb w) : u = w := by
  induction u generalizing w with
  | nil => exact (List.length_eq_zero_iff.mp hlen.symm).symm
  | cons a u ih =>
    cases w with
    | nil => cases hlen
    | cons b w =>
      have hlen' : u.length = w.length := Nat.succ.inj hlen
      have hu := ofMsb_lt u
      have hw := ofMsb_lt w
      rw [ofMsb, ofMsb, hlen'] at h
      rw [hlen'] at hu
      have hab : a = b := by
        cases a <;> cases b <;> simp at h ⊢ <;> omega
      rw [hab] at h ⊢
      rw [ih hlen' (Nat.add_left_cancel h)]

/-! ## Words in a stream -/

/-- The bit at a position of the stream. -/
def bitAt (bytes : List UInt8) (i : ℕ) : Option Bool :=
  bytes[i / 8]?.map fun b => b.toNat.testBit (i % 8)

/-- The word stands in the stream, from this position on. -/
def Holds (bytes : List UInt8) : ℕ → List Bool → Prop
  | _, [] => True
  | i, b :: w => bitAt bytes i = some b ∧ Holds bytes (i + 1) w

variable {bytes : List UInt8} {i : ℕ} {u w : List Bool}

theorem holds_append : Holds bytes i (u ++ w) ↔ Holds bytes i u ∧ Holds bytes (i + u.length) w := by
  induction u generalizing i with
  | nil => simp [Holds]
  | cons b u ih =>
    rw [List.cons_append, Holds, Holds, ih, List.length_cons, Nat.add_right_comm, and_assoc,
      Nat.add_assoc]

theorem holds_iff : Holds bytes i w ↔ ∀ k b, w[k]? = some b → bitAt bytes (i + k) = some b := by
  induction w generalizing i with
  | nil => simp [Holds]
  | cons a w ih =>
    rw [Holds, ih]
    constructor
    · rintro ⟨hhead, htail⟩ k b hk
      cases k with
      | zero => rw [Nat.add_zero, hhead]; exact hk
      | succ k =>
        rw [List.getElem?_cons_succ] at hk
        rw [← htail k b hk, Nat.add_right_comm, Nat.add_assoc]
    · intro h
      refine ⟨h 0 a rfl, fun k b hk => ?_⟩
      rw [Nat.add_right_comm, Nat.add_assoc]
      exact h (k + 1) b (List.getElem?_cons_succ.trans hk)

/-- Some word stands at every place of the stream. -/
theorem exists_holds {n : ℕ} : ∀ {i : ℕ}, i + n ≤ 8 * bytes.length →
    ∃ w : List Bool, w.length = n ∧ Holds bytes i w := by
  induction n with
  | zero => intro i _; exact ⟨[], rfl, trivial⟩
  | succ n ih =>
    intro i h
    obtain ⟨w, hlen, hw⟩ := ih (i := i + 1) (by omega)
    have hbit : bitAt bytes i = some (bytes[i / 8].toNat.testBit (i % 8)) := by
      rw [bitAt, List.getElem?_eq_getElem (by omega), Option.map_some]
    exact ⟨_ :: w, by rw [List.length_cons, hlen], hbit, hw⟩

/-- A word that stands in the stream ends in it. -/
theorem Holds.length_le (h : Holds bytes i w) (hw : w ≠ []) : i + w.length ≤ 8 * bytes.length := by
  have hlast : bitAt bytes (i + (w.length - 1)) = some (w.getLast hw) := by
    apply holds_iff.mp h
    rw [List.getLast_eq_getElem, List.getElem?_eq_getElem]
  rw [bitAt, Option.map_eq_some_iff] at hlast
  obtain ⟨b, hb, _⟩ := hlast
  have hlt : (i + (w.length - 1)) / 8 < bytes.length := (List.getElem?_eq_some_iff.mp hb).1
  have hpos := List.length_pos_of_ne_nil hw
  omega

/-! ## Bytes -/

/-- The bits of a list of bytes. -/
def bits (bytes : List UInt8) : List Bool := bytes.flatMap fun b => lsb 8 b.toNat

/-- The bytes with these bits, the last byte filled up with zeros. -/
def pack (w : List Bool) : List UInt8 :=
  (List.range ((w.length + 7) / 8)).map fun k => UInt8.ofNat (ofLsb ((w.drop (8 * k)).take 8))

@[simp] theorem length_bits (bytes : List UInt8) : (bits bytes).length = 8 * bytes.length := by
  induction bytes with
  | nil => rfl
  | cons b bytes ih =>
    rw [bits, List.flatMap_cons, List.length_append, length_lsb, ← bits, ih, List.length_cons]
    ring

@[simp] theorem length_pack (w : List Bool) : (pack w).length = (w.length + 7) / 8 := by
  rw [pack, List.length_map, List.length_range]

/-- **Bytes that stand at a byte boundary of the stream are bytes of the stream.** -/
theorem Holds.byte_eq {data : List UInt8} {p : ℕ} (h : Holds bytes (8 * p) (bits data)) :
    ∀ k b, data[k]? = some b → bytes[p + k]? = some b := by
  induction data generalizing p with
  | nil => intro k b hk; cases hk
  | cons a data ih =>
    intro k b hk
    rw [bits, List.flatMap_cons, holds_append, ← bits, length_lsb] at h
    cases k with
    | zero =>
      obtain rfl : a = b := Option.some.inj hk
      have hbit : ∀ j < 8, bitAt bytes (8 * p + j) = some (a.toNat.testBit j) := by
        intro j hj
        apply holds_iff.mp h.1
        rw [getElem?_lsb, if_pos hj]
      have hbyte : ∀ j < 8, ∃ c, bytes[p]? = some c ∧ c.toNat.testBit j = a.toNat.testBit j := by
        intro j hj
        have hj' := hbit j hj
        rw [bitAt, show (8 * p + j) / 8 = p by omega, show (8 * p + j) % 8 = j by omega,
          Option.map_eq_some_iff] at hj'
        exact hj'
      obtain ⟨c, hc, _⟩ := hbyte 0 (by omega)
      rw [Nat.add_zero, hc]
      congr 1
      apply UInt8.toNat_inj.mp
      apply Nat.eq_of_testBit_eq
      intro j
      by_cases hj : j < 8
      · obtain ⟨c', hc', heq⟩ := hbyte j hj
        rw [← Option.some.inj (hc.symm.trans hc')] at heq
        exact heq
      · have hsmall : ∀ x : UInt8, x.toNat < 2 ^ j := fun x =>
          x.toNat_lt.trans_le (Nat.pow_le_pow_right Nat.two_pos (by omega))
        rw [Nat.testBit_lt_two_pow (hsmall c), Nat.testBit_lt_two_pow (hsmall a)]
    | succ k =>
      have htail := h.2
      rw [show 8 * p + 8 = 8 * (p + 1) by ring] at htail
      rw [← ih htail k b hk, Nat.add_right_comm, Nat.add_assoc]

/-- **The packed bytes hold the word.** -/
theorem bitAt_pack {k : ℕ} (h : k < w.length) : bitAt (pack w) k = w[k]? := by
  have hbyte : ((w.drop (8 * (k / 8))).take 8).length ≤ 8 := List.length_take_le _ _
  have hval : ofLsb ((w.drop (8 * (k / 8))).take 8) < 256 :=
    (ofLsb_lt _).trans_le (Nat.pow_le_pow_right Nat.two_pos hbyte)
  rw [bitAt, pack, List.getElem?_map, List.getElem?_range (by omega), Option.map_some,
    Option.map_some, UInt8.toNat_ofNat', Nat.mod_eq_of_lt hval, testBit_ofLsb,
    List.getD_eq_getElem?_getD, List.getElem?_take_of_lt (Nat.mod_lt _ (by omega)),
    List.getElem?_drop, Nat.div_add_mod, List.getElem?_eq_getElem h, Option.getD_some]

theorem holds_pack_append {before after : List UInt8} :
    Holds (before ++ pack w ++ after) (8 * before.length) w := by
  apply holds_iff.mpr
  intro k b hk
  have hlen : k < w.length := (List.getElem?_eq_some_iff.mp hk).1
  have hpos : (8 * before.length + k) / 8 = before.length + k / 8 := by omega
  have hmid : k / 8 < (pack w).length := by rw [length_pack]; omega
  rw [← hk, ← bitAt_pack hlen, bitAt, hpos, show (8 * before.length + k) % 8 = k % 8 by omega,
    List.append_assoc, List.getElem?_append_right (by omega), Nat.add_sub_cancel_left,
    List.getElem?_append_left hmid, bitAt]

end BitStream
