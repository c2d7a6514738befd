/-
# String instructions

A library for the string instructions of a machine with 32-bit addresses: `stos` and `movs` of
some bytes, in the direction that a flag says, and their repetition.  An interval of a memory is
replaced by the bytes of another one; addresses wrap.
-/
import AuroraOS.Memory

namespace StringInstructions

open Memory

/-! ## Replacing an interval -/

/-- The memory `m` with the `n` bytes from `a` on taken from `r`. -/
def patch (m : Mem) (a : BitVec 32) (n : ℕ) (r : Mem) : Mem := fun b =>
  if (b - a).toNat < n then r b else m b

variable {m r r' : Mem} {a b : BitVec 32} {n k i : ℕ}

theorem patch_inside (h : (b - a).toNat < n) : patch m a n r b = r b := if_pos h

theorem patch_outside (h : n ≤ (b - a).toNat) : patch m a n r b = m b :=
  if_neg (Nat.not_lt.mpr h)

@[simp] theorem patch_zero (m : Mem) (a : BitVec 32) (r : Mem) : patch m a 0 r = m := by
  funext b
  exact patch_outside (Nat.zero_le _)

theorem patch_congr (h : ∀ b, (b - a).toNat < n → r b = r' b) : patch m a n r = patch m a n r' := by
  funext b
  by_cases hb : (b - a).toNat < n
  · rw [patch_inside hb, patch_inside hb, h b hb]
  · rw [patch_outside (Nat.not_lt.mp hb), patch_outside (Nat.not_lt.mp hb)]

/-- A byte that is stored is an interval of one byte. -/
theorem update_eq_patch (m : Mem) (a : BitVec 32) (c : UInt8) :
    Function.update m a c = patch m a 1 fun _ => c := by
  funext b
  rw [Function.update_apply, patch]
  congr 1
  rw [eq_iff_iff]
  constructor
  · rintro rfl
    rw [BitVec.sub_self]
    decide
  · intro h
    bv_omega

/-- **An interval that grows at its end.** -/
theorem patch_append (h : n + k ≤ 2 ^ 32) :
    patch (patch m a n r) (a + BitVec.ofNat 32 n) k r = patch m a (n + k) r := by
  funext b
  rw [patch, patch, patch]
  have hlt := (b - a).isLt
  have hnext : (b - (a + BitVec.ofNat 32 n)).toNat =
      if n ≤ (b - a).toNat then (b - a).toNat - n else 2 ^ 32 + (b - a).toNat - n := by
    split_ifs <;> bv_omega
  rw [hnext]
  split_ifs <;> first | rfl | omega

/-- **An interval that grows at its start.** -/
theorem patch_prepend (h : n + k ≤ 2 ^ 32) :
    patch (patch m (a + BitVec.ofNat 32 k) n r) a k r = patch m a (k + n) r := by
  funext b
  rw [patch, patch, patch]
  have hlt := (b - a).isLt
  have hnext : (b - (a + BitVec.ofNat 32 k)).toNat =
      if k ≤ (b - a).toNat then (b - a).toNat - k else 2 ^ 32 + (b - a).toNat - k := by
    split_ifs <;> bv_omega
  rw [hnext]
  split_ifs <;> first | rfl | omega

/-! ## Instructions -/

/-- The registers of the string instructions, the direction flag, and the memory. -/
structure Regs where
  edi : BitVec 32
  esi : BitVec 32
  df : Bool
  mem : Mem

/-- A pointer behind an instruction on `k` bytes. -/
def Regs.advance (s : Regs) (k : ℕ) (p : BitVec 32) : BitVec 32 :=
  if s.df then p - BitVec.ofNat 32 k else p + BitVec.ofNat 32 k

/-- `stosb`, `stosw` and `stosl`: store `k` bytes of a register. -/
def stos (k : ℕ) (eax : BitVec 32) (s : Regs) : Regs :=
  { s with
    mem := patch s.mem s.edi k fun b => byteOf eax (b - s.edi).toNat
    edi := s.advance k s.edi }

/-- `movsb`, `movsw` and `movsl`: copy `k` bytes. -/
def movs (k : ℕ) (s : Regs) : Regs :=
  { s with
    mem := patch s.mem s.edi k fun b => s.mem (s.esi + (b - s.edi))
    edi := s.advance k s.edi
    esi := s.advance k s.esi }

/-- `rep`. -/
def rep (f : Regs → Regs) : ℕ → Regs → Regs
  | 0, s => s
  | n + 1, s => rep f n (f s)

/-! ## Storing -/

theorem add_ofNat_ofNat (a : BitVec 32) (i k : ℕ) :
    a + BitVec.ofNat 32 i + BitVec.ofNat 32 k = a + BitVec.ofNat 32 (i + k) := by
  rw [BitVec.add_assoc, ← BitVec.ofNat_add]

/-- The distance of an address from a start, seen from a later one. -/
theorem toNat_sub_add (hlt : i + (b - (a + BitVec.ofNat 32 i)).toNat < 2 ^ 32) :
    (b - a).toNat = i + (b - (a + BitVec.ofNat 32 i)).toNat := by
  bv_omega

/-- An address by its distance from a start. -/
theorem eq_add_of_toNat_sub (h : (b - a).toNat = i) : b = a + BitVec.ofNat 32 i := by
  bv_omega

/-- **Repeated stores fill an interval**, with the bytes `r`. -/
theorem rep_stos {eax esi : BitVec 32} (hk : ∀ b, byteOf eax ((b - a).toNat % k) = r b) :
    ∀ {n i : ℕ}, k ∣ i → i + k * n ≤ 2 ^ 32 →
      rep (stos k eax) n ⟨a + BitVec.ofNat 32 i, esi, false, patch m a i r⟩ =
        ⟨a + BitVec.ofNat 32 (i + k * n), esi, false, patch m a (i + k * n) r⟩ := by
  intro n
  induction n with
  | zero => intro i _ _; rfl
  | succ n ih =>
    intro i hi hlen
    rw [Nat.mul_succ] at hlen
    have hword : ∀ b, (b - (a + BitVec.ofNat 32 i)).toNat < k →
        byteOf eax (b - (a + BitVec.ofNat 32 i)).toNat = r b := by
      intro b hb
      have hdist : (b - a).toNat = i + (b - (a + BitVec.ofNat 32 i)).toNat :=
        toNat_sub_add (by omega)
      rw [← hk b, hdist, Nat.add_mod, Nat.mod_eq_zero_of_dvd hi,
        Nat.zero_add, Nat.mod_mod, Nat.mod_eq_of_lt hb]
    have hstep : stos k eax ⟨a + BitVec.ofNat 32 i, esi, false, patch m a i r⟩ =
        ⟨a + BitVec.ofNat 32 (i + k), esi, false, patch m a (i + k) r⟩ := by
      rw [stos, patch_congr hword, patch_append (by omega), Regs.advance, if_neg Bool.false_ne_true,
        add_ofNat_ofNat]
    rw [rep, hstep, ih (Dvd.dvd.add hi (dvd_refl k)) (by omega)]
    have hsum : i + k + k * n = i + k * (n + 1) := by
      rw [Nat.mul_succ]
      omega
    rw [hsum]

/-! ## Copying -/

/-- The memory after `n` bytes are copied, as if all of them were read first. -/
def copied (m : Mem) (dst src : BitVec 32) (n : ℕ) : Mem :=
  patch m dst n fun b => m (src + (b - dst))

/-- An interval of `n` bytes does not start inside of another one. -/
def NotInside (dst src : BitVec 32) (n : ℕ) : Prop := dst = src ∨ n ≤ (dst - src).toNat

variable {dst src : BitVec 32}

/-- Upwards, a byte that is still to be read has not been written, but for the value it has. -/
theorem copied_read {j : ℕ} (h : NotInside dst src n) (hij : i ≤ j) (hj : j < n) :
    copied m dst src i (src + BitVec.ofNat 32 j) = m (src + BitVec.ofNat 32 j) := by
  rcases h with rfl | h
  · rw [copied, patch]
    split_ifs
    · congr 1
      bv_omega
    · rfl
  · apply patch_outside
    bv_omega

/-- **Copying upwards**, in pieces of `k` bytes. -/
theorem rep_movs (h : NotInside dst src n) (hn : n ≤ 2 ^ 32) : ∀ {l i : ℕ}, i + k * l ≤ n →
    rep (movs k) l ⟨dst + BitVec.ofNat 32 i, src + BitVec.ofNat 32 i, false, copied m dst src i⟩ =
      ⟨dst + BitVec.ofNat 32 (i + k * l), src + BitVec.ofNat 32 (i + k * l), false,
        copied m dst src (i + k * l)⟩ := by
  intro l
  induction l with
  | zero => intro i _; rfl
  | succ l ih =>
    intro i hlen
    rw [Nat.mul_succ] at hlen
    have hread : ∀ b, (b - (dst + BitVec.ofNat 32 i)).toNat < k →
        copied m dst src i (src + BitVec.ofNat 32 i + (b - (dst + BitVec.ofNat 32 i))) =
          m (src + (b - dst)) := by
      intro b hb
      obtain ⟨j, hj⟩ : ∃ j, (b - (dst + BitVec.ofNat 32 i)).toNat = j := ⟨_, rfl⟩
      rw [hj] at hb
      obtain rfl := eq_add_of_toNat_sub hj
      rw [add_sub_cancel_left, add_ofNat_ofNat, add_ofNat_ofNat, add_sub_cancel_left]
      exact copied_read h (by omega) (by omega)
    have hstep : movs k ⟨dst + BitVec.ofNat 32 i, src + BitVec.ofNat 32 i, false,
        copied m dst src i⟩ = ⟨dst + BitVec.ofNat 32 (i + k), src + BitVec.ofNat 32 (i + k), false,
          copied m dst src (i + k)⟩ := by
      rw [movs, patch_congr hread, copied, patch_append (by omega), Regs.advance, Regs.advance,
        if_neg Bool.false_ne_true, if_neg Bool.false_ne_true, add_ofNat_ofNat, add_ofNat_ofNat]
      rfl
    rw [rep, hstep, ih (by omega)]
    have hsum : i + k + k * l = i + k * (l + 1) := by
      rw [Nat.mul_succ]
      omega
    rw [hsum]

/-- The memory when the bytes from `i` on are copied. -/
def copiedFrom (m : Mem) (dst src : BitVec 32) (n i : ℕ) : Mem :=
  patch m (dst + BitVec.ofNat 32 i) (n - i) fun b => m (src + (b - dst))

/-- Downwards, a byte that is still to be read has not been written. -/
theorem copiedFrom_read (h : NotInside src dst n) (hi : i < n) (hn : n ≤ 2 ^ 32) :
    copiedFrom m dst src n (i + 1) (src + BitVec.ofNat 32 i) = m (src + BitVec.ofNat 32 i) := by
  rcases h with rfl | h
  · rw [copiedFrom, patch]
    split_ifs
    · congr 1
      bv_omega
    · rfl
  · apply patch_outside
    bv_omega

/-- **Copying downwards**, byte by byte. -/
theorem rep_movs_down (h : NotInside src dst n) (hn : n ≤ 2 ^ 32) : ∀ {i : ℕ}, i ≤ n →
    rep (movs 1) i ⟨dst + BitVec.ofNat 32 i - 1, src + BitVec.ofNat 32 i - 1, true,
      copiedFrom m dst src n i⟩ = ⟨dst - 1, src - 1, true, copied m dst src n⟩ := by
  intro i
  induction i with
  | zero =>
    intro _
    rw [rep, copiedFrom, copied, BitVec.add_zero, BitVec.add_zero, Nat.sub_zero]
  | succ i ih =>
    intro hi
    have hdst : dst + BitVec.ofNat 32 (i + 1) - 1 = dst + BitVec.ofNat 32 i := by bv_omega
    have hsrc : src + BitVec.ofNat 32 (i + 1) - 1 = src + BitVec.ofNat 32 i := by bv_omega
    have hread : ∀ b, (b - (dst + BitVec.ofNat 32 i)).toNat < 1 →
        copiedFrom m dst src n (i + 1) (src + BitVec.ofNat 32 i + (b - (dst + BitVec.ofNat 32 i))) =
          m (src + (b - dst)) := by
      intro b hb
      obtain rfl := eq_add_of_toNat_sub (Nat.lt_one_iff.mp hb)
      rw [add_sub_cancel_left, BitVec.add_zero, BitVec.add_zero, add_sub_cancel_left]
      exact copiedFrom_read h hi hn
    have hnext : dst + BitVec.ofNat 32 (i + 1) = dst + BitVec.ofNat 32 i + BitVec.ofNat 32 1 :=
      (add_ofNat_ofNat _ _ _).symm
    have hstep : movs 1 ⟨dst + BitVec.ofNat 32 i, src + BitVec.ofNat 32 i, true,
        copiedFrom m dst src n (i + 1)⟩ = ⟨dst + BitVec.ofNat 32 i - 1, src + BitVec.ofNat 32 i - 1,
          true, copiedFrom m dst src n i⟩ := by
      rw [movs, patch_congr hread, copiedFrom, hnext, patch_prepend (by omega), copiedFrom,
        Regs.advance, Regs.advance, if_pos rfl, if_pos rfl]
      have hlen : 1 + (n - (i + 1)) = n - i := by omega
      rw [hlen]
      rfl
    rw [hdst, hsrc, rep, hstep, ih (by omega)]

end StringInstructions
