/-
# Filling and copying memory

`memset`, `memset_word`, `memset_dword`, `memcpy` and `memmove` of `lib.c`, which are written in
assembly: bytes up to an aligned address, then words with a string instruction, then the bytes
that are left.  They are compared with filling and copying an interval at once.
-/
import AuroraOS.StringInstructions

namespace AuroraOS

open Memory StringInstructions

/-! ## The code -/

/-- `movb %al, (%edi)` and `addl $1, %edi`. -/
def putAl (eax : BitVec 32) (s : Regs) : Regs :=
  { s with mem := Function.update s.mem s.edi (byteOf eax 0), edi := s.edi + 1 }

/-- The loop at `.memset_bottom`, over the count in `edx`. -/
def memsetBottom (eax : BitVec 32) : ℕ → Regs → Regs
  | 0, s => s
  | edx + 1, s => memsetBottom eax edx (putAl eax s)

/-- The loop at `.memset_top`, over the count in `ecx`, with the branch to `.memset_aligned`. -/
def memsetTop (eax : BitVec 32) : ℕ → Regs → Regs
  | 0, s => s
  | ecx + 1, s =>
    if s.edi &&& 0x3 = 0 then
      memsetBottom eax ((ecx + 1) &&& 0x3)
        (rep (stos 4 eax) ((ecx + 1) >>> 2) { s with df := false })
    else memsetTop eax ecx (putAl eax s)

/-- `memset`, from the registers and the memory at its call. -/
def memset (s c n : BitVec 32) (r : Regs) : Regs :=
  let c := c &&& 0xFF
  memsetTop (c <<< 24 ||| c <<< 16 ||| c <<< 8 ||| c) n.toNat { r with edi := s }

/-- `memset_word`. -/
def memsetWord (s c n : BitVec 32) (r : Regs) : Regs :=
  rep (stos 2 c) n.toNat { r with edi := s, df := false }

/-- `memset_dword`. -/
def memsetDword (s c n : BitVec 32) (r : Regs) : Regs :=
  rep (stos 4 c) n.toNat { r with edi := s, df := false }

/-- `movb (%esi), %al`, `movb %al, (%edi)`, and both pointers moved up. -/
def copyAl (s : Regs) : Regs :=
  { s with mem := Function.update s.mem s.edi (s.mem s.esi), edi := s.edi + 1, esi := s.esi + 1 }

/-- The loop at `.memcpy_bottom`, over the count in `edx`. -/
def memcpyBottom : ℕ → Regs → Regs
  | 0, s => s
  | edx + 1, s => memcpyBottom edx (copyAl s)

/-- The loop at `.memcpy_top`, over the count in `ecx`, with the branch to `.memcpy_aligned`. -/
def memcpyTop : ℕ → Regs → Regs
  | 0, s => s
  | ecx + 1, s =>
    if s.edi &&& 0x3 = 0 then
      memcpyBottom ((ecx + 1) &&& 0x3) (rep (movs 4) ((ecx + 1) >>> 2) { s with df := false })
    else memcpyTop ecx (copyAl s)

/-- `memcpy`. -/
def memcpy (dest src n : BitVec 32) (r : Regs) : Regs :=
  memcpyTop n.toNat { r with edi := dest, esi := src }

/-- `memmove`. -/
def memmove (dest src n : BitVec 32) (r : Regs) : Regs :=
  if src.toNat ≥ dest.toNat then
    rep (movs 1) n.toNat { r with edi := dest, esi := src, df := false }
  else
    rep (movs 1) n.toNat { r with edi := dest + n - 1, esi := src + n - 1, df := true }

/-! ## Filling -/

section Fill

variable {m r : Mem} {a esi eax : BitVec 32} {df : Bool}

/-- The four bytes of the word that `memset` stores. -/
theorem byteOf_fill (c : BitVec 32) {k : ℕ} (hk : k < 4) :
    byteOf ((c &&& 0xFF) <<< 24 ||| (c &&& 0xFF) <<< 16 ||| (c &&& 0xFF) <<< 8 ||| (c &&& 0xFF)) k =
      byteOf c 0 := by
  obtain ⟨v, hv⟩ : ∃ v, v = c &&& 0xFF := ⟨_, rfl⟩
  have hmask : v.toNat = c.toNat % 2 ^ 8 := by
    rw [hv, BitVec.toNat_and]
    exact Nat.and_two_pow_sub_one_eq_mod c.toNat 8
  have hshift : ∀ {n : ℕ}, n ≤ 24 → (v <<< n).toNat = 2 ^ n * v.toNat := by
    intro n hn
    have hpow : 2 ^ n ≤ 2 ^ 24 := Nat.pow_le_pow_right (by decide) hn
    have hlt : 2 ^ n * v.toNat ≤ 2 ^ 24 * 255 := Nat.mul_le_mul hpow (by omega)
    rw [BitVec.toNat_shiftLeft, Nat.shiftLeft_eq, Nat.mul_comm, Nat.mod_eq_of_lt (by omega)]
  have h1 : 2 ^ 24 * v.toNat ||| 2 ^ 16 * v.toNat = 2 ^ 16 * (2 ^ 8 * v.toNat + v.toNat) := by
    rw [← Nat.two_pow_add_eq_or_of_lt (by omega)]
    omega
  have h2 : 2 ^ 16 * (2 ^ 8 * v.toNat + v.toNat) ||| 2 ^ 8 * v.toNat =
      2 ^ 8 * (2 ^ 8 * (2 ^ 8 * v.toNat + v.toNat) + v.toNat) := by
    rw [← Nat.two_pow_add_eq_or_of_lt (by omega)]
    omega
  have h3 : 2 ^ 8 * (2 ^ 8 * (2 ^ 8 * v.toNat + v.toNat) + v.toNat) ||| v.toNat =
      2 ^ 8 * (2 ^ 8 * (2 ^ 8 * v.toNat + v.toNat) + v.toNat) + v.toNat :=
    (Nat.two_pow_add_eq_or_of_lt (by omega) _).symm
  rw [← hv, byteOf, byteOf, BitVec.toNat_or, BitVec.toNat_or, BitVec.toNat_or, hshift (by decide),
    hshift (by decide), hshift (by decide), h1, h2, h3]
  apply UInt8.toNat_inj.mp
  rw [UInt8.toNat_ofNat', UInt8.toNat_ofNat', pow_zero, Nat.div_one, ← hmask]
  have hlt : v.toNat < 2 ^ 8 := hmask ▸ Nat.mod_lt _ (by decide)
  clear hmask
  have hbytes : 2 ^ 8 * (2 ^ 8 * (2 ^ 8 * v.toNat + v.toNat) + v.toNat) + v.toNat =
      256 * (256 * (256 * v.toNat + v.toNat) + v.toNat) + v.toNat := rfl
  have hdiv : ∀ y, (256 * y + v.toNat) / 256 = y := fun y => by omega
  rw [hbytes]
  interval_cases k
  · rw [pow_zero, Nat.div_one]
    omega
  · rw [pow_one, hdiv]
    omega
  · rw [pow_two, ← Nat.div_div_eq_div_mul, hdiv, hdiv]
    omega
  · rw [pow_succ, pow_two, ← Nat.div_div_eq_div_mul, ← Nat.div_div_eq_div_mul, hdiv, hdiv, hdiv]
    omega

/-- One byte more. -/
theorem putAl_fill {i : ℕ} (hi : i < 2 ^ 32) (hr : ∀ b, r b = byteOf eax 0) :
    putAl eax ⟨a + BitVec.ofNat 32 i, esi, df, patch m a i r⟩ =
      ⟨a + BitVec.ofNat 32 (i + 1), esi, df, patch m a (i + 1) r⟩ := by
  have hbyte : Function.update (patch m a i r) (a + BitVec.ofNat 32 i) (byteOf eax 0) =
      patch (patch m a i r) (a + BitVec.ofNat 32 i) 1 r := by
    rw [update_eq_patch, patch_congr fun b _ => (hr b).symm]
  rw [putAl, hbyte, patch_append (by omega)]
  exact congrArg (Regs.mk · esi df (patch m a (i + 1) r)) (add_ofNat_ofNat a i 1)

theorem memsetBottom_eq (hr : ∀ b, r b = byteOf eax 0) : ∀ {n i : ℕ}, i + n ≤ 2 ^ 32 →
    memsetBottom eax n ⟨a + BitVec.ofNat 32 i, esi, df, patch m a i r⟩ =
      ⟨a + BitVec.ofNat 32 (i + n), esi, df, patch m a (i + n) r⟩ := by
  intro n
  induction n with
  | zero => intro i _; rfl
  | succ n ih =>
    intro i hlen
    rw [memsetBottom, putAl_fill (by omega) hr, ih (by omega), Nat.add_right_comm, Nat.add_assoc]

/-- A count is made up of words and the bytes that are left. -/
theorem words_add_bytes (n : ℕ) : 4 * (n >>> 2) + (n &&& 0x3) = n := by
  have hand : n &&& 0x3 = n % 4 := Nat.and_two_pow_sub_one_eq_mod n 2
  rw [hand, Nat.shiftRight_eq_div_pow]
  omega

/-- **The loop of `memset` fills the bytes that are left**, whatever the alignment is. -/
theorem memsetTop_eq (hr : ∀ b, r b = byteOf eax 0) (hword : ∀ k < 4, byteOf eax k = byteOf eax 0) :
    ∀ {n i : ℕ}, i + n ≤ 2 ^ 32 →
      (memsetTop eax n ⟨a + BitVec.ofNat 32 i, esi, df, patch m a i r⟩).mem =
        patch m a (i + n) r := by
  intro n
  induction n with
  | zero => intro i _; rfl
  | succ n ih =>
    intro i hlen
    rw [memsetTop]
    split_ifs with haligned
    · -- the words start a memory of their own, at the aligned address
      have hwords := words_add_bytes (n + 1)
      obtain ⟨w, hw⟩ : ∃ w, w = (n + 1) >>> 2 := ⟨_, rfl⟩
      obtain ⟨l, hl⟩ : ∃ l, l = (n + 1) &&& 0x3 := ⟨_, rfl⟩
      rw [← hw, ← hl] at hwords ⊢
      have hstart : (⟨a + BitVec.ofNat 32 i, esi, false, patch m a i r⟩ : Regs) =
          ⟨a + BitVec.ofNat 32 i + BitVec.ofNat 32 0, esi, false,
            patch (patch m a i r) (a + BitVec.ofNat 32 i) 0 r⟩ := by
        rw [BitVec.add_zero, patch_zero]
      have hfill : ∀ b, byteOf eax ((b - (a + BitVec.ofNat 32 i)).toNat % 4) = r b := fun b => by
        rw [hr, hword _ (Nat.mod_lt _ (by decide))]
      show (memsetBottom eax l (rep (stos 4 eax) w
        ⟨a + BitVec.ofNat 32 i, esi, false, patch m a i r⟩)).mem = _
      rw [hstart, rep_stos hfill (dvd_zero 4) (by omega), Nat.zero_add, memsetBottom_eq hr (by omega),
        hwords]
      exact patch_append hlen
    · rw [putAl_fill (by omega) hr, ih (by omega), Nat.add_right_comm, Nat.add_assoc]

end Fill

/-- **`memset` fills exactly the `n` bytes from `s` on**, for every alignment, value and length and
whatever the direction flag was. -/
theorem memset_eq (s c n : BitVec 32) (r : Regs) :
    (memset s c n r).mem = patch r.mem s n.toNat fun _ => byteOf c 0 := by
  obtain ⟨eax, heax⟩ : ∃ eax, eax = (c &&& 0xFF) <<< 24 ||| (c &&& 0xFF) <<< 16 |||
    (c &&& 0xFF) <<< 8 ||| (c &&& 0xFF) := ⟨_, rfl⟩
  have hbyte : ∀ k < 4, byteOf eax k = byteOf c 0 := fun k hk => by rw [heax, byteOf_fill c hk]
  have hn := n.isLt
  have hloop := @memsetTop_eq r.mem (fun _ => byteOf c 0) s r.esi eax r.df
    (fun _ => (hbyte 0 (by decide)).symm) (fun k hk => (hbyte k hk).trans (hbyte 0 (by decide)).symm)
    n.toNat 0 (by omega)
  rw [BitVec.add_zero, patch_zero, Nat.zero_add] at hloop
  rw [memset, ← heax]
  exact hloop

/-- **`memset_word` and `memset_dword` repeat the low bytes of `c`.** -/
theorem memset_pieces (s c n : BitVec 32) (r : Regs) :
    (2 * n.toNat ≤ 2 ^ 32 → (memsetWord s c n r).mem =
      patch r.mem s (2 * n.toNat) fun b => byteOf c ((b - s).toNat % 2)) ∧
    (4 * n.toNat ≤ 2 ^ 32 → (memsetDword s c n r).mem =
      patch r.mem s (4 * n.toNat) fun b => byteOf c ((b - s).toNat % 4)) := by
  have hstart : ∀ t : Mem, ({ r with edi := s, df := false } : Regs) =
      ⟨s + BitVec.ofNat 32 0, r.esi, false, patch r.mem s 0 t⟩ := by
    intro t
    rw [BitVec.add_zero, patch_zero]
  constructor
  · intro hn
    rw [memsetWord, hstart fun b => byteOf c ((b - s).toNat % 2),
      rep_stos (fun _ => rfl) (dvd_zero 2) (by omega), Nat.zero_add]
  · intro hn
    rw [memsetDword, hstart fun b => byteOf c ((b - s).toNat % 4),
      rep_stos (fun _ => rfl) (dvd_zero 4) (by omega), Nat.zero_add]

/-! ## Copying -/

section Copy

variable {m : Mem} {dst src : BitVec 32} {df : Bool} {n i : ℕ}

/-- One byte more. -/
theorem copyAl_copied (h : NotInside dst src n) (hi : i < n) (hn : n ≤ 2 ^ 32) :
    copyAl ⟨dst + BitVec.ofNat 32 i, src + BitVec.ofNat 32 i, df, copied m dst src i⟩ =
      ⟨dst + BitVec.ofNat 32 (i + 1), src + BitVec.ofNat 32 (i + 1), df,
        copied m dst src (i + 1)⟩ := by
  have hread := copied_read (m := m) h (le_refl i) hi
  have hbyte : Function.update (copied m dst src i) (dst + BitVec.ofNat 32 i)
      (m (src + BitVec.ofNat 32 i)) = copied m dst src (i + 1) := by
    rw [update_eq_patch, copied, copied, ← patch_append (by omega)]
    apply patch_congr
    intro b hb
    rw [eq_add_of_toNat_sub (Nat.lt_one_iff.mp hb), BitVec.add_zero, add_sub_cancel_left]
  rw [copyAl]
  dsimp only
  rw [hread, hbyte]
  exact congrArg₂ (Regs.mk · · df (copied m dst src (i + 1))) (add_ofNat_ofNat dst i 1)
    (add_ofNat_ofNat src i 1)

theorem memcpyBottom_eq (h : NotInside dst src n) (hn : n ≤ 2 ^ 32) : ∀ {k i : ℕ}, i + k = n →
    (memcpyBottom k ⟨dst + BitVec.ofNat 32 i, src + BitVec.ofNat 32 i, df, copied m dst src i⟩).mem =
      copied m dst src n := by
  intro k
  induction k with
  | zero => rintro i rfl; rfl
  | succ k ih =>
    intro i hlen
    rw [memcpyBottom, copyAl_copied h (by omega) hn, ih (by omega)]

/-- **The loop of `memcpy` copies the bytes that are left**, whatever the alignment is. -/
theorem memcpyTop_eq (h : NotInside dst src n) (hn : n ≤ 2 ^ 32) : ∀ {k i : ℕ}, i + k = n →
    (memcpyTop k ⟨dst + BitVec.ofNat 32 i, src + BitVec.ofNat 32 i, df, copied m dst src i⟩).mem =
      copied m dst src n := by
  intro k
  induction k with
  | zero => rintro i rfl; rfl
  | succ k ih =>
    intro i hlen
    rw [memcpyTop]
    split_ifs with haligned
    · have hwords := words_add_bytes (k + 1)
      show (memcpyBottom ((k + 1) &&& 0x3) (rep (movs 4) ((k + 1) >>> 2)
        ⟨dst + BitVec.ofNat 32 i, src + BitVec.ofNat 32 i, false, copied m dst src i⟩)).mem = _
      rw [rep_movs h hn (by omega)]
      exact memcpyBottom_eq h hn (by omega)
    · rw [copyAl_copied h (by omega) hn, ih (by omega)]

end Copy

/-- **`memcpy` copies `n` bytes** unless the destination starts inside of the source; the alignment
of the two does not matter, and the destination may reach into the source from below. -/
theorem memcpy_eq {dest src n : BitVec 32} (h : NotInside dest src n.toNat) (r : Regs) :
    (memcpy dest src n r).mem = copied r.mem dest src n.toNat := by
  have hloop := @memcpyTop_eq r.mem dest src r.df n.toNat h n.isLt.le n.toNat 0 (Nat.zero_add _)
  rw [BitVec.add_zero, BitVec.add_zero, copied, patch_zero] at hloop
  exact hloop

/-- Registers with the direction flag set, and a memory with bytes that count up. -/
def countingRegs : Regs := ⟨0, 0, true, fun b => UInt8.ofNat b.toNat⟩

/-- Six bytes are copied down by two, from an address that is not aligned. -/
theorem memcpy_eq_down : (memcpy 0x1001 0x1003 6 countingRegs).mem 0x1006 = 8 := by
  rw [memcpy_eq (.inr (by decide)) countingRegs]
  decide

/-- **`memmove` copies `n` bytes however the two intervals overlap**; it leaves the direction flag
set when the source is below the destination. -/
theorem memmove_eq {dest src n : BitVec 32} (hdest : dest.toNat + n.toNat ≤ 2 ^ 32)
    (hsrc : src.toNat + n.toNat ≤ 2 ^ 32) (r : Regs) :
    (memmove dest src n r).mem = copied r.mem dest src n.toNat ∧
      (memmove dest src n r).df = decide (src.toNat < dest.toNat) := by
  have hn := n.isLt.le
  rw [memmove]
  split_ifs with hbelow
  · have hup : NotInside dest src n.toNat := by
      by_cases heq : dest = src
      · exact .inl heq
      · exact .inr (by bv_omega)
    have hrun := @rep_movs r.mem n.toNat 1 dest src hup hn n.toNat 0 (by omega)
    rw [BitVec.add_zero, BitVec.add_zero, copied, patch_zero, Nat.zero_add, Nat.one_mul] at hrun
    rw [hrun]
    exact ⟨rfl, (decide_eq_false (by omega)).symm⟩
  · have hdown : NotInside src dest n.toNat := .inr (by bv_omega)
    have hrun := @rep_movs_down r.mem n.toNat dest src hdown hn n.toNat le_rfl
    rw [copiedFrom, Nat.sub_self, patch_zero, BitVec.ofNat_toNat, BitVec.setWidth_eq] at hrun
    rw [hrun]
    exact ⟨rfl, (decide_eq_true (by omega)).symm⟩

/-- Six bytes are copied up by two. -/
theorem memmove_eq_up : (memmove 0x1003 0x1001 6 countingRegs).mem 0x1008 = 6 ∧
    (memmove 0x1003 0x1001 6 countingRegs).df = true := by
  obtain ⟨hmem, hdf⟩ := @memmove_eq 0x1003 0x1001 6 (by decide) (by decide) countingRegs
  rw [hmem, hdf]
  decide

end AuroraOS
