/-
# Copying on the card

`cirrus_accel_mmio_screen_copy` of `vga_accel.c` lets the chip copy a rectangle of the video memory,
byte by byte and line by line.  The chip copies up or down in memory, and the code chooses the
direction so that it is right also for rectangles that overlap.
-/
import AuroraOS.VideoMemory

namespace AuroraOS

open Blit Memory Raster

/-! ## The chip and the code -/

/-- `FORWARDS` and `BACKWARDS`. -/
inductive BltDirection
  | forwards
  | backwards

/-- The step from one address to the next. -/
def BltDirection.sign : BltDirection → ℤ
  | forwards => 1
  | backwards => -1

/-- The address of a byte of a line, counted from the address where the chip starts. -/
def bltAddress (dir : BltDirection) (addr : ℤ) (r k : ℕ) : BitVec 32 :=
  BitVec.ofInt 32 (addr + dir.sign * (r * vgaBytesPerLine + k))

/-- What the chip does, without comparing colors: lines of bytes, from two addresses on.  Its
registers hold one less than there are. -/
def bitBlt (dir : BltDirection) (srcaddr destaddr : ℤ) (width height : ℕ) (m : Mem) : Mem :=
  forLoop (fun r => forLoop (fun k m =>
    Function.update m (bltAddress dir destaddr r k) (m (bltAddress dir srcaddr r k)))
    (width + 1) 0) (height + 1) 0 m

/-- `MMIOSETWIDTH` and `MMIOSETHEIGHT`. -/
def bltCount (n : ℤ) : ℕ := ((n - 1) % 65536).toNat

/-- `BLTBYTEADDRESS`. -/
def bltByteAddress (x y : ℤ) : ℤ := y * vgaBytesPerLine + x * 2

/-- `cirrus_accel_mmio_screen_copy`, with the transparency off. -/
def screenCopy (x1 y1 x2 y2 : ℤ) (width height : ℕ) (m : Mem) : Mem :=
  let width := width * 2
  let srcaddr := bltByteAddress x1 y1
  let destaddr := bltByteAddress x2 y2
  if (y1 < y2 ∨ y1 = y2 ∧ x1 < x2) ∧ y1 + height > y2 then
    bitBlt .backwards (srcaddr + ((height - 1) * vgaBytesPerLine + width - 1))
      (destaddr + ((height - 1) * vgaBytesPerLine + width - 1)) (bltCount width)
      (bltCount height) m
  else bitBlt .forwards srcaddr destaddr (bltCount width) (bltCount height) m

/-! ## Copying in an order -/

section Order

variable {A B : Type*} [DecidableEq A] {width height : ℕ}

/-- The places of a rectangle that have been copied, row by row. -/
def CopiedBefore (width r k r' k' : ℕ) : Prop := k' < width ∧ (r' < r ∨ r' = r ∧ k' < k)

/-- A memory in which some places of a rectangle have been copied. -/
structure CopiedUpTo (width : ℕ) (dst src : ℕ → ℕ → A) (m₀ : A → B) (r k : ℕ) (m : A → B) :
    Prop where
  copied : ∀ r' k', CopiedBefore width r k r' k' → m (dst r' k') = m₀ (src r' k')
  frame : ∀ b, (∀ r' k', CopiedBefore width r k r' k' → dst r' k' ≠ b) → m b = m₀ b

variable {dst src : ℕ → ℕ → A} {m₀ m : A → B}

/-- **One place more**, if it has not been written yet. -/
theorem CopiedUpTo.next {r k : ℕ} (h : CopiedUpTo width dst src m₀ r k m) (hk : k < width)
    (hread : ∀ r' k', CopiedBefore width r k r' k' → dst r' k' ≠ src r k)
    (hwrite : ∀ r' k', CopiedBefore width r k r' k' → dst r' k' ≠ dst r k) :
    CopiedUpTo width dst src m₀ r (k + 1) (Function.update m (dst r k) (m (src r k))) where
  copied := by
    intro r' k' hbefore
    by_cases hnew : r' = r ∧ k' = k
    · obtain ⟨rfl, rfl⟩ := hnew
      rw [Function.update_self]
      exact h.frame _ hread
    · have hold : CopiedBefore width r k r' k' := by
        obtain ⟨hlt, horder⟩ := hbefore
        exact ⟨hlt, by omega⟩
      rw [Function.update_of_ne (hwrite r' k' hold), h.copied r' k' hold]
  frame := by
    intro b hb
    have hne : b ≠ dst r k := (hb r k ⟨hk, .inr ⟨rfl, Nat.lt_succ_self k⟩⟩).symm
    rw [Function.update_of_ne hne]
    refine h.frame b fun r' k' hbefore => hb r' k' ⟨hbefore.1, ?_⟩
    obtain ⟨_, horder⟩ := hbefore
    omega

/-- **A rectangle that is copied in an order** in which no place is read after it has been written
is copied as if all of it were read first. -/
theorem copiedUpTo_loops
    (hread : ∀ r < height, ∀ k < width, ∀ r' k', CopiedBefore width r k r' k' →
      dst r' k' ≠ src r k)
    (hwrite : ∀ r < height, ∀ k < width, ∀ r' k', CopiedBefore width r k r' k' →
      dst r' k' ≠ dst r k)
    (m₀ : A → B) : CopiedUpTo width dst src m₀ height 0
      (forLoop (fun r => forLoop (fun k m => Function.update m (dst r k) (m (src r k))) width 0)
        height 0 m₀) := by
  refine forLoop_induction (R := fun r m => CopiedUpTo width dst src m₀ r 0 m) ?_
    (Nat.zero_add height) ⟨fun r' k' h => ?_, fun b _ => rfl⟩
  · intro r hr m hm
    have hrow : CopiedUpTo width dst src m₀ r width
        (forLoop (fun k m => Function.update m (dst r k) (m (src r k))) width 0 m) := by
      refine forLoop_induction (R := fun k m => CopiedUpTo width dst src m₀ r k m) ?_
        (Nat.zero_add width) hm
      intro k hk m hm
      exact hm.next hk (hread r hr k hk) (hwrite r hr k hk)
    have hiff : ∀ r' k', CopiedBefore width (r + 1) 0 r' k' ↔ CopiedBefore width r width r' k' := by
      intro r' k'
      rw [CopiedBefore, CopiedBefore]
      omega
    exact ⟨fun r' k' h => hrow.copied r' k' ((hiff r' k').mp h),
      fun b hb => hrow.frame b fun r' k' h => hb r' k' ((hiff r' k').mpr h)⟩
  · rw [CopiedBefore] at h
    omega

end Order

/-! ## The chip copies -/

section Chip

variable {width height : ℕ} {m : Mem}

theorem ofInt_injective {a b : ℤ} (ha : 0 ≤ a ∧ a < 2 ^ 32) (hb : 0 ≤ b ∧ b < 2 ^ 32)
    (h : BitVec.ofInt 32 a = BitVec.ofInt 32 b) : a = b := by
  have hnat := congrArg BitVec.toNat h
  rw [BitVec.toNat_ofInt, BitVec.toNat_ofInt] at hnat
  omega

/-- The addresses of the chip are those of a memory without wrapping. -/
def InMemory (dir : BltDirection) (addr : ℤ) (width height : ℕ) : Prop :=
  ∀ r < height, ∀ k < width, 0 ≤ addr + dir.sign * ((r : ℕ) * vgaBytesPerLine + (k : ℕ)) ∧
    addr + dir.sign * ((r : ℕ) * vgaBytesPerLine + (k : ℕ)) < 2 ^ 32

/-- **The chip copies a rectangle** as if it read all of it first, when it reads no byte after it
has written it. -/
theorem bitBlt_copied {dir : BltDirection} {srcaddr destaddr : ℤ} (hwidth : width ≤ 2048)
    (hwpos : 0 < width) (hheight : height ≤ 2048) (hhpos : 0 < height)
    (hsrc : InMemory dir srcaddr width height) (hdest : InMemory dir destaddr width height)
    (hread : ∀ r k r' k', r < height → k < width → CopiedBefore width r k r' k' →
      destaddr + dir.sign * ((r' : ℕ) * vgaBytesPerLine + (k' : ℕ)) ≠
        srcaddr + dir.sign * ((r : ℕ) * vgaBytesPerLine + (k : ℕ))) :
    CopiedUpTo width (bltAddress dir destaddr) (bltAddress dir srcaddr) m height 0
      (bitBlt dir srcaddr destaddr (bltCount width) (bltCount height) m) := by
  have hw : bltCount width + 1 = width := by
    rw [bltCount]
    omega
  have hh : bltCount height + 1 = height := by
    rw [bltCount]
    omega
  rw [bitBlt, hw, hh]
  refine copiedUpTo_loops (fun r hr k hk r' k' hbefore heq => ?_)
    (fun r hr k hk r' k' hbefore heq => ?_) m
  · obtain ⟨hk', horder⟩ := id hbefore
    exact hread r k r' k' hr hk hbefore
      (ofInt_injective (hdest r' (by omega) k' hk') (hsrc r hr k hk) heq)
  · obtain ⟨hk', horder⟩ := hbefore
    have hoffset := ofInt_injective (hdest r' (by omega) k' hk') (hdest r hr k hk) heq
    -- a line is not longer than the way to the next one
    cases dir <;> simp only [BltDirection.sign, vgaBytesPerLine] at hoffset <;> omega

end Chip

/-- A rectangle of the video memory. -/
structure RectOnCard (x y : ℤ) (width height : ℕ) : Prop where
  width_pos : 0 < width
  height_pos : 0 < height
  left : 0 ≤ x
  right : x + width ≤ 1024
  top : 0 ≤ y
  bottom : y + height ≤ 2048

/-- What a copy of a rectangle does to the bytes. -/
structure CopiesBytes (x1 y1 x2 y2 : ℤ) (width height : ℕ) (m m' : Mem) : Prop where
  copied : ∀ j k : ℕ, j < height → k < width * 2 →
    m' (BitVec.ofInt 32 (bltByteAddress x2 y2 + (j * vgaBytesPerLine + k))) =
      m (BitVec.ofInt 32 (bltByteAddress x1 y1 + (j * vgaBytesPerLine + k)))
  frame : ∀ b, (∀ j k : ℕ, j < height → k < width * 2 →
    BitVec.ofInt 32 (bltByteAddress x2 y2 + (j * vgaBytesPerLine + k)) ≠ b) → m' b = m b

section Copy

variable {x1 y1 x2 y2 : ℤ} {width height : ℕ}

theorem screenCopy_forwards (h1 : RectOnCard x1 y1 width height)
    (h2 : RectOnCard x2 y2 width height)
    (hdir : ¬((y1 < y2 ∨ y1 = y2 ∧ x1 < x2) ∧ y1 + height > y2)) (m : Mem) :
    CopiesBytes x1 y1 x2 y2 width height m (screenCopy x1 y1 x2 y2 width height m) := by
  obtain ⟨hwidth, hheight, hl1, hr1, ht1, hb1⟩ := h1
  obtain ⟨_, _, hl2, hr2, ht2, hb2⟩ := h2
  have hcopy : CopiedUpTo (width * 2) (bltAddress .forwards (bltByteAddress x2 y2))
      (bltAddress .forwards (bltByteAddress x1 y1)) m height 0
      (bitBlt .forwards (bltByteAddress x1 y1) (bltByteAddress x2 y2) (bltCount (width * 2 : ℕ))
        (bltCount height) m) := by
    refine bitBlt_copied (by omega) (by omega) (by omega) hheight (fun r hr k hk => ?_)
      (fun r hr k hk => ?_) (fun r k r' k' hr hk hbefore => ?_)
    · simp only [BltDirection.sign, bltByteAddress, vgaBytesPerLine]
      omega
    · simp only [BltDirection.sign, bltByteAddress, vgaBytesPerLine]
      omega
    · -- the destination is not behind the source, or they do not overlap
      obtain ⟨hk', horder⟩ := hbefore
      simp only [BltDirection.sign, bltByteAddress, vgaBytesPerLine]
      omega
  rw [screenCopy, if_neg hdir]
  refine ⟨fun j k hj hk => ?_, fun b hb => hcopy.frame b fun r k hbefore => ?_⟩
  · have hbyte := hcopy.copied j k ⟨hk, .inl hj⟩
    simp only [bltAddress, BltDirection.sign, one_mul] at hbyte
    exact hbyte
  · obtain ⟨hk, horder⟩ := hbefore
    simp only [bltAddress, BltDirection.sign, one_mul]
    exact hb r k (by omega) hk

theorem screenCopy_backwards (h1 : RectOnCard x1 y1 width height)
    (h2 : RectOnCard x2 y2 width height)
    (hdir : (y1 < y2 ∨ y1 = y2 ∧ x1 < x2) ∧ y1 + height > y2) (m : Mem) :
    CopiesBytes x1 y1 x2 y2 width height m (screenCopy x1 y1 x2 y2 width height m) := by
  obtain ⟨hwidth, hheight, hl1, hr1, ht1, hb1⟩ := h1
  obtain ⟨_, _, hl2, hr2, ht2, hb2⟩ := h2
  obtain ⟨skip, hskip⟩ : ∃ skip : ℤ, skip = (height - 1) * vgaBytesPerLine + (width * 2 : ℕ) - 1 :=
    ⟨_, rfl⟩
  have hcopy : CopiedUpTo (width * 2) (bltAddress .backwards (bltByteAddress x2 y2 + skip))
      (bltAddress .backwards (bltByteAddress x1 y1 + skip)) m height 0
      (bitBlt .backwards (bltByteAddress x1 y1 + skip) (bltByteAddress x2 y2 + skip)
        (bltCount (width * 2 : ℕ)) (bltCount height) m) := by
    simp only [vgaBytesPerLine] at hskip
    refine bitBlt_copied (by omega) (by omega) (by omega) hheight (fun r hr k hk => ?_)
      (fun r hr k hk => ?_) (fun r k r' k' hr hk hbefore => ?_)
    · simp only [BltDirection.sign, bltByteAddress, vgaBytesPerLine]
      omega
    · simp only [BltDirection.sign, bltByteAddress, vgaBytesPerLine]
      omega
    · -- the destination is behind the source
      obtain ⟨hk', horder⟩ := hbefore
      simp only [BltDirection.sign, bltByteAddress, vgaBytesPerLine]
      omega
  -- the chip counts lines and bytes from the other end
  have haddr : ∀ (base : ℤ) {j k : ℕ}, j < height → k < width * 2 →
      bltAddress .backwards (base + skip) (height - 1 - j) (width * 2 - 1 - k) =
        BitVec.ofInt 32 (base + (j * vgaBytesPerLine + k)) := by
    intro base j k hj hk
    rw [bltAddress, hskip]
    refine congrArg (BitVec.ofInt 32) ?_
    simp only [BltDirection.sign, vgaBytesPerLine]
    omega
  rw [screenCopy, if_pos hdir, ← hskip]
  refine ⟨fun j k hj hk => ?_, fun b hb => hcopy.frame b fun r k hbefore => ?_⟩
  · have hbyte := hcopy.copied (height - 1 - j) (width * 2 - 1 - k) ⟨by omega, .inl (by omega)⟩
    rwa [haddr _ hj hk, haddr _ hj hk] at hbyte
  · obtain ⟨hk, horder⟩ := hbefore
    have hplace := hb (height - 1 - r) (width * 2 - 1 - k) (by omega) (by omega)
    rw [← haddr _ (by omega) (by omega)] at hplace
    have hrow : height - 1 - (height - 1 - r) = r := by omega
    have hcol : width * 2 - 1 - (width * 2 - 1 - k) = k := by omega
    rwa [hrow, hcol] at hplace

theorem address_eq (x y : ℤ) :
    address 0 vgaBytesPerLine x y = BitVec.ofInt 32 (bltByteAddress x y) ∧
      address 0 vgaBytesPerLine x y + 1 = BitVec.ofInt 32 (bltByteAddress x y + 1) := by
  have hfirst : address 0 vgaBytesPerLine x y = BitVec.ofInt 32 (bltByteAddress x y) := by
    rw [address, zero_add, bltByteAddress]
  refine ⟨hfirst, ?_⟩
  rw [hfirst, BitVec.ofInt_add]
  rfl

/-- **A copy on the card is right for rectangles that overlap in any way**: the pixels of one
rectangle are in the other one as they were before, and nothing else has changed. -/
theorem screenCopy_eq (h1 : RectOnCard x1 y1 width height) (h2 : RectOnCard x2 y2 width height)
    (m : Mem) :
    (∀ i < width, ∀ j < height,
      picture (screenCopy x1 y1 x2 y2 width height m) 0 vgaBytesPerLine (x2 + (i : ℕ))
        (y2 + (j : ℕ)) = picture m 0 vgaBytesPerLine (x1 + (i : ℕ)) (y1 + (j : ℕ))) ∧
    (∀ x y, Vga.OnCard x y → ¬((x2 ≤ x ∧ x < x2 + width) ∧ y2 ≤ y ∧ y < y2 + height) →
      picture (screenCopy x1 y1 x2 y2 width height m) 0 vgaBytesPerLine x y =
        picture m 0 vgaBytesPerLine x y) ∧
    ∀ b : BitVec 32, 2 ^ 22 ≤ b.toNat → screenCopy x1 y1 x2 y2 width height m b = m b := by
  have hbytes : CopiesBytes x1 y1 x2 y2 width height m (screenCopy x1 y1 x2 y2 width height m) := by
    by_cases hdir : (y1 < y2 ∨ y1 = y2 ∧ x1 < x2) ∧ y1 + height > y2
    · exact screenCopy_backwards h1 h2 hdir m
    · exact screenCopy_forwards h1 h2 hdir m
  obtain ⟨_, _, hl2, hr2, ht2, hb2⟩ := h2
  have hplace : ∀ {x y : ℤ} {i j : ℕ}, bltByteAddress (x + i) (y + j) =
        bltByteAddress x y + (j * vgaBytesPerLine + (i * 2 : ℕ)) ∧
      bltByteAddress (x + i) (y + j) + 1 =
        bltByteAddress x y + (j * vgaBytesPerLine + (i * 2 + 1 : ℕ)) := by
    intro x y i j
    simp only [bltByteAddress, vgaBytesPerLine]
    omega
  refine ⟨fun i hi j hj => ?_, fun x y hin hout => ?_, fun b hb => hbytes.frame b ?_⟩
  · rw [picture, picture, load16, load16, (address_eq _ _).2, (address_eq _ _).2,
      (address_eq _ _).1, (address_eq _ _).1, hplace.2, hplace.2, hplace.1, hplace.1,
      hbytes.copied j _ hj (by omega), hbytes.copied j _ hj (by omega)]
  · obtain ⟨⟨hx, hpitch⟩, hy, hlt⟩ := hin
    have hpitch' : x * 2 + 2 ≤ 2048 := hpitch
    apply load16_congr
    · rw [(address_eq _ _).1]
      refine hbytes.frame _ fun j k hj hk heq => hout ?_
      have hoffset := ofInt_injective ?_ ?_ heq
      all_goals
        simp only [bltByteAddress, vgaBytesPerLine] at *
        omega
    · rw [(address_eq _ _).2]
      refine hbytes.frame _ fun j k hj hk heq => hout ?_
      have hoffset := ofInt_injective ?_ ?_ heq
      all_goals
        simp only [bltByteAddress, vgaBytesPerLine] at *
        omega
  · rintro j k hj hk rfl
    rw [BitVec.toNat_ofInt] at hb
    simp only [bltByteAddress, vgaBytesPerLine] at hb
    omega

end Copy

/-- A square that is moved by one pixel down and to the right, over itself. -/
theorem screenCopy_eq_down : picture (screenCopy 10 10 11 11 5 5 fun b => UInt8.ofNat b.toNat) 0
    vgaBytesPerLine (11 + (2 : ℕ)) (11 + (3 : ℕ)) = 0x1918 := by
  have h1 : RectOnCard 10 10 5 5 := by constructor <;> decide
  have h2 : RectOnCard 11 11 5 5 := by constructor <;> decide
  rw [(screenCopy_eq h1 h2 _).1 2 (by decide) 3 (by decide)]
  decide

end AuroraOS
