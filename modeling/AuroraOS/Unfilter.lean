/-
# Filters of the scanlines

The last part of the PNG decoder of `gui/upng.c`: the inflated data holds the scanlines of the
image, each behind the type of its filter.  The filters are taken back line by line, and the
bits that fill up the last byte of a line are removed.

The buffers may overlap, and in one branch they are the same, so all of this goes through one
memory in which a buffer is given by its address.
-/
import AuroraOS.Huffman
import AuroraOS.Overlay

namespace AuroraOS

open Overlay

/-- The bytes behind the pointers of the decoder. -/
abbrev Bytes := ℕ → UInt8

/-! ## The code -/

/-- `paeth_predictor`. -/
def paethPredictor (a b c : ℤ) : ℤ :=
  let p := a + b - c
  let pa := if p > a then p - a else a - p
  let pb := if p > b then p - b else b - p
  let pc := if p > c then p - c else c - p
  if pa ≤ pb ∧ pa ≤ pc then a else if pb ≤ pc then b else c

/-- `paeth_predictor` of three bytes, as a byte. -/
def paethByte (a b c : UInt8) : UInt8 := UInt8.ofInt (paethPredictor a.toNat b.toNat c.toNat)

/-- `unfilter_scanline`; `precon` is the address of the line above. -/
def unfilterScanline (recon scanline : ℕ) (precon : Option ℕ) (bytewidth : ℕ) (filterType : UInt8)
    (length : ℕ) (m : Bytes) : Except Stop Bytes :=
  let copy (m : Bytes) (i : ℕ) : UInt8 := m (scanline + i)
  -- a loop over the first pixel, and one over the others
  let loops (first others : Bytes → ℕ → UInt8) : Bytes :=
    fill recon others (length - bytewidth) bytewidth (fill recon first bytewidth 0 m)
  match filterType.toNat, precon with
  | 0, _ => .ok (fill recon copy length 0 m)
  | 1, _ => .ok (loops copy fun m i => m (scanline + i) + m (recon + (i - bytewidth)))
  | 2, some p => .ok (fill recon (fun m i => m (scanline + i) + m (p + i)) length 0 m)
  | 2, none => .ok (fill recon copy length 0 m)
  | 3, some p => .ok (loops (fun m i => m (scanline + i) + m (p + i) / 2)
      fun m i => m (scanline + i) +
        UInt8.ofNat (((m (recon + (i - bytewidth))).toNat + (m (p + i)).toNat) / 2))
  | 3, none => .ok (loops copy fun m i => m (scanline + i) + m (recon + (i - bytewidth)) / 2)
  | 4, some p => .ok (loops (fun m i => m (scanline + i) + paethByte 0 (m (p + i)) 0)
      fun m i => m (scanline + i) +
        paethByte (m (recon + (i - bytewidth))) (m (p + i)) (m (p + (i - bytewidth))))
  | 4, none => .ok (loops copy fun m i =>
      m (scanline + i) + paethByte (m (recon + (i - bytewidth))) 0 0)
  | _, _ => malformed

/-- The loop of `unfilter`, from line `y` on; `prevline` is the address of the line above. -/
def unfilterLoop (out inp bytewidth linebytes : ℕ) :
    ℕ → ℕ → Option ℕ → Bytes → Except Stop Bytes
  | 0, _, _, m => .ok m
  | n + 1, y, prevline, m => do
    let outindex := linebytes * y % 2 ^ 32
    let inindex := (1 + linebytes) * y % 2 ^ 32
    let filterType := m (inp + inindex)
    let m ← unfilterScanline (out + outindex) (inp + (inindex + 1)) prevline bytewidth filterType
      linebytes m
    unfilterLoop out inp bytewidth linebytes n (y + 1) (some (out + outindex)) m

/-- `unfilter`. -/
def unfilter (out inp w h bpp : ℕ) (m : Bytes) : Except Stop Bytes :=
  unfilterLoop out inp ((bpp + 7) / 8) ((w * bpp + 7) % 2 ^ 32 / 8) h 0 none m

/-- One bit of `remove_padding_bits`. -/
def copyBit (out inp obp ibp : ℕ) (m : Bytes) : Bytes :=
  let bit := (m (inp + ibp >>> 3)).toNat >>> (7 - (ibp &&& 0x7)) &&& 1
  let mask : UInt8 := 1 <<< UInt8.ofNat (7 - (obp &&& 0x7))
  Function.update m (out + obp >>> 3)
    (if bit = 0 then m (out + obp >>> 3) &&& ~~~mask else m (out + obp >>> 3) ||| mask)

/-- The inner loop of `remove_padding_bits`, over the bits of a line. -/
def copyBits (out inp : ℕ) : ℕ → ℕ → ℕ → Bytes → Bytes
  | 0, _, _, m => m
  | n + 1, obp, ibp, m =>
    copyBits out inp n ((obp + 1) % 2 ^ 32) ((ibp + 1) % 2 ^ 32) (copyBit out inp obp ibp m)

/-- The outer loop of `remove_padding_bits`. -/
def removeLoop (out inp olinebits diff : ℕ) : ℕ → ℕ → ℕ → Bytes → Bytes
  | 0, _, _, m => m
  | n + 1, obp, ibp, m =>
    removeLoop out inp olinebits diff n ((obp + olinebits) % 2 ^ 32)
      ((ibp + olinebits + diff) % 2 ^ 32) (copyBits out inp olinebits obp ibp m)

/-- `remove_padding_bits`. -/
def removePaddingBits (out inp olinebits ilinebits h : ℕ) (m : Bytes) : Bytes :=
  removeLoop out inp olinebits (sub32 ilinebits olinebits) h 0 0 m

/-- `post_process_scanlines`, for an image with `bpp` bits in a pixel. -/
def postProcessScanlines (out inp w h bpp : ℕ) (m : Bytes) : Except Stop Bytes :=
  let linebits := w * bpp % 2 ^ 32
  let filledbits := (w * bpp + 7) % 2 ^ 32 / 8 * 8
  if bpp = 0 then malformed
  else if bpp < 8 ∧ linebits ≠ filledbits then do
    let m ← unfilter inp inp w h bpp m
    .ok (removePaddingBits out inp linebits filledbits h m)
  else unfilter out inp w h bpp m

/-! ## Filtering -/

/-- The filters of a line. -/
inductive FilterType
  | none
  | sub
  | up
  | average
  | paeth
  deriving DecidableEq, Repr

namespace FilterType

/-- The byte that stands for a filter. -/
def code : FilterType → UInt8
  | none => 0
  | sub => 1
  | up => 2
  | average => 3
  | paeth => 4

/-- What a filter expects of a byte, from the byte of the pixel on the left, the byte above, and
the one above that on the left. -/
def predict : FilterType → UInt8 → UInt8 → UInt8 → UInt8
  | none, _, _, _ => 0
  | sub, a, _, _ => a
  | up, _, b, _ => b
  | average, a, b, _ => UInt8.ofNat ((a.toNat + b.toNat) / 2)
  | paeth, a, b, c => paethByte a b c

end FilterType

/-- The bytes of the pixels on the left, 0 on the left of the first one. -/
def leftOf (bytewidth : ℕ) (r : Bytes) : Bytes := fun i =>
  if i < bytewidth then 0 else r (i - bytewidth)

/-- The bytes that a filter makes of a line: what is left when the expected bytes are taken off.
`prior` is the line above. -/
def residual (t : FilterType) (bytewidth : ℕ) (prior r : Bytes) : Bytes := fun i =>
  r i - t.predict (leftOf bytewidth r i) (prior i) (leftOf bytewidth prior i)

/-- The line above, zeros above the first one. -/
def above (raw : ℕ → Bytes) (y : ℕ) : Bytes := if y = 0 then fun _ => 0 else raw (y - 1)

/-- The filtered lines of an image at an address: the type of the filter, and the bytes that the
filter makes of the line. -/
def FilteredAt (m : Bytes) (inp bytewidth linebytes h : ℕ) (types : ℕ → FilterType)
    (raw : ℕ → Bytes) : Prop :=
  ∀ y < h, m (inp + (1 + linebytes) * y) = (types y).code ∧
    ∀ i < linebytes, m (inp + ((1 + linebytes) * y + 1) + i) =
      residual (types y) bytewidth (above raw y) (raw y) i

/-- The lines of an image, one behind the other. -/
def flat (linebytes : ℕ) (raw : ℕ → Bytes) : Bytes := fun k => raw (k / linebytes) (k % linebytes)

/-- A buffer that can be written from its start on while `n` bytes of another one are read. -/
def WritesBehind (out inp n : ℕ) : Prop := out ≤ inp ∨ inp + n ≤ out

/-! ## One line -/

section Line

variable {recon scanline bytewidth length : ℕ} {precon : Option ℕ} {t : FilterType}
  {prior r m : Bytes}

/-- A loop over the first pixel, and one over the others. -/
theorem fill_twice {first others : Bytes → ℕ → UInt8} (hlen : bytewidth ≤ length)
    (hfirst : ∀ i < bytewidth, first (overlay m recon i r) i = r i)
    (hothers : ∀ i, bytewidth ≤ i → i < length → others (overlay m recon i r) i = r i) :
    fill recon others (length - bytewidth) bytewidth (fill recon first bytewidth 0 m) =
      overlay m recon length r := by
  rw [fill_eq_zero hfirst, fill_eq fun i hi hlt => hothers i hi (by omega)]
  congr 1
  omega

theorem residual_add (i : ℕ) : residual t bytewidth prior r i +
    t.predict (leftOf bytewidth r i) (prior i) (leftOf bytewidth prior i) = r i :=
  sub_add_cancel _ _

/-- What a line finds in the memory while it is filled in: its filtered bytes, and the line
above. -/
structure LineReady (recon scanline : ℕ) (precon : Option ℕ) (bytewidth length : ℕ)
    (t : FilterType) (prior r m : Bytes) : Prop where
  scanline : ∀ i < length, overlay m recon i r (scanline + i) = residual t bytewidth prior r i
  above : ∀ p ∈ precon, ∀ i < length, ∀ j ≤ i, overlay m recon i r (p + j) = prior j
  first : precon = none → ∀ i, prior i = 0

namespace LineReady

variable (h : LineReady recon scanline precon bytewidth length t prior r m)

include h

/-- A byte of the first pixel. -/
theorem first_eq {i : ℕ} (hi : i < bytewidth) (hlen : bytewidth ≤ length) :
    overlay m recon i r (scanline + i) + t.predict 0 (prior i) 0 = r i := by
  have hleft : ∀ s : Bytes, leftOf bytewidth s i = 0 := fun s => if_pos hi
  have hr : residual t bytewidth prior r i +
      t.predict (leftOf bytewidth r i) (prior i) (leftOf bytewidth prior i) = r i :=
    residual_add i
  rw [hleft, hleft] at hr
  rw [h.scanline i (by omega), hr]

/-- A byte of another pixel. -/
theorem others_eq {i : ℕ} (hi : bytewidth ≤ i) (hlt : i < length) :
    overlay m recon i r (scanline + i) +
      t.predict (r (i - bytewidth)) (prior i) (prior (i - bytewidth)) = r i := by
  have hleft : ∀ s : Bytes, leftOf bytewidth s i = s (i - bytewidth) := fun s =>
    if_neg (Nat.not_lt.mpr hi)
  have hr : residual t bytewidth prior r i +
      t.predict (leftOf bytewidth r i) (prior i) (leftOf bytewidth prior i) = r i :=
    residual_add i
  rw [hleft, hleft] at hr
  rw [h.scanline i hlt, hr]

theorem byte_eq {i : ℕ} (hi : i < length) : overlay m recon i r (scanline + i) +
    t.predict (leftOf bytewidth r i) (prior i) (leftOf bytewidth prior i) = r i := by
  rw [h.scanline i hi, residual_add]

/-- The byte above. -/
theorem above_eq {p i : ℕ} (hp : precon = some p) (hi : i < length) :
    overlay m recon i r (p + i) = prior i := h.above p hp i hi i le_rfl

/-- The byte above on the left. -/
theorem aboveLeft_eq {p i : ℕ} (hp : precon = some p) (hi : i < length) :
    overlay m recon i r (p + (i - bytewidth)) = prior (i - bytewidth) :=
  h.above p hp i hi _ (Nat.sub_le _ _)

omit h in
/-- The byte on the left. -/
theorem left_eq {i : ℕ} (hpos : 0 < bytewidth) (hi : bytewidth ≤ i) :
    overlay m recon i r (recon + (i - bytewidth)) = r (i - bytewidth) :=
  overlay_inside (by omega)

end LineReady

theorem half_eq (b : UInt8) : UInt8.ofNat (b.toNat / 2) = b / 2 := by
  apply UInt8.toNat_inj.mp
  have hb := b.toNat_lt
  rw [UInt8.toNat_ofNat', UInt8.toNat_div]
  exact Nat.mod_eq_of_lt (by omega)

/-- **A line is taken back to what the filter was given.** -/
theorem unfilterScanline_eq (h : LineReady recon scanline precon bytewidth length t prior r m)
    (hpos : 0 < bytewidth) (hlen : bytewidth ≤ length) :
    unfilterScanline recon scanline precon bytewidth t.code length m =
      .ok (overlay m recon length r) := by
  have hcopy : ∀ i < length, (t.predict (leftOf bytewidth r i) (prior i)
      (leftOf bytewidth prior i) = 0) → overlay m recon i r (scanline + i) = r i := by
    intro i hi hzero
    have hbyte := h.byte_eq hi
    rwa [hzero, add_zero] at hbyte
  have hcopyFirst : ∀ i < bytewidth, (t.predict 0 (prior i) 0 = 0) →
      overlay m recon i r (scanline + i) = r i := by
    intro i hi hzero
    have hbyte := h.first_eq hi hlen
    rwa [hzero, add_zero] at hbyte
  have hfirst : ∀ i < bytewidth, i < length := fun i hi => hi.trans_le hlen
  cases t with
  | none => exact congrArg Except.ok (fill_eq_zero fun i hi => hcopy i hi rfl)
  | sub =>
    refine congrArg Except.ok (fill_twice hlen (fun i hi => hcopyFirst i hi rfl)
      fun i hi hlt => ?_)
    rw [LineReady.left_eq hpos hi]
    exact h.others_eq hi hlt
  | up =>
    cases precon with
    | none => exact congrArg Except.ok (fill_eq_zero fun i hi => hcopy i hi (h.first rfl i))
    | some p =>
      refine congrArg Except.ok (fill_eq_zero fun i hi => ?_)
      rw [h.above_eq rfl hi]
      exact h.byte_eq hi
  | average =>
    cases precon with
    | none =>
      refine congrArg Except.ok (fill_twice hlen (fun i hi => hcopyFirst i hi ?_)
        fun i hi hlt => ?_)
      · rw [h.first rfl]
        rfl
      · have hothers := h.others_eq hi hlt
        rw [h.first rfl, FilterType.predict, UInt8.toNat_zero, Nat.add_zero, half_eq] at hothers
        rw [LineReady.left_eq hpos hi]
        exact hothers
    | some p =>
      refine congrArg Except.ok (fill_twice hlen (fun i hi => ?_) fun i hi hlt => ?_)
      · have hbyte := h.first_eq hi hlen
        rw [FilterType.predict, UInt8.toNat_zero, Nat.zero_add, half_eq] at hbyte
        rw [h.above_eq rfl (hfirst i hi)]
        exact hbyte
      · rw [LineReady.left_eq hpos hi, h.above_eq rfl hlt]
        exact h.others_eq hi hlt
  | paeth =>
    cases precon with
    | none =>
      refine congrArg Except.ok (fill_twice hlen (fun i hi => hcopyFirst i hi ?_)
        fun i hi hlt => ?_)
      · rw [h.first rfl]
        rfl
      · have hothers := h.others_eq hi hlt
        rw [h.first rfl, h.first rfl] at hothers
        rw [LineReady.left_eq hpos hi]
        exact hothers
    | some p =>
      refine congrArg Except.ok (fill_twice hlen (fun i hi => ?_) fun i hi hlt => ?_)
      · rw [h.above_eq rfl (hfirst i hi)]
        exact h.first_eq hi hlen
      · rw [LineReady.left_eq hpos hi, h.above_eq rfl hlt, h.aboveLeft_eq rfl hlt]
        exact h.others_eq hi hlt

end Line

/-! ## All lines -/

section Image

variable {out inp bytewidth linebytes h : ℕ} {types : ℕ → FilterType} {raw : ℕ → Bytes} {m : Bytes}

theorem flat_line {y i : ℕ} (hi : i < linebytes) :
    flat linebytes raw (linebytes * y + i) = raw y i := by
  rw [flat, Nat.mul_add_div (by omega), Nat.mul_add_mod, Nat.div_eq_of_lt hi, Nat.mod_eq_of_lt hi,
    Nat.add_zero]

/-- A line that is filled in behind the others. -/
theorem overlay_line {y i : ℕ} (hi : i ≤ linebytes) :
    overlay (overlay m out (linebytes * y) (flat linebytes raw)) (out + linebytes * y) i (raw y) =
      overlay m out (linebytes * y + i) (flat linebytes raw) := by
  rw [overlay_add]
  exact overlay_congr fun k hk => (flat_line (by omega)).symm

/-- What is still to be read has not been written yet. -/
theorem read_ahead {y i k : ℕ} (hbehind : WritesBehind out inp ((1 + linebytes) * h)) (hy : y < h)
    (hk : k ≤ linebytes) (hik : i ≤ k) : overlay m out (linebytes * y + i) (flat linebytes raw)
      (inp + ((1 + linebytes) * y + k)) = m (inp + ((1 + linebytes) * y + k)) := by
  apply overlay_outside
  have hrow : (1 + linebytes) * y + (1 + linebytes) ≤ (1 + linebytes) * h := by
    rw [← Nat.mul_succ]
    exact Nat.mul_le_mul_left _ hy
  have hsplit : (1 + linebytes) * y = y + linebytes * y := by ring
  rcases hbehind with hle | hle
  · right
    omega
  · left
    omega

/-- The line that is next finds what it needs. -/
theorem lineReady {y : ℕ} (hin : FilteredAt m inp bytewidth linebytes h types raw)
    (hbehind : WritesBehind out inp ((1 + linebytes) * h)) (hy : y < h) :
    LineReady (out + linebytes * y) (inp + ((1 + linebytes) * y + 1))
      (if y = 0 then none else some (out + linebytes * (y - 1))) bytewidth linebytes (types y)
      (above raw y) (raw y) (overlay m out (linebytes * y) (flat linebytes raw)) := by
  constructor
  · intro i hi
    have haddr : inp + ((1 + linebytes) * y + 1) + i = inp + ((1 + linebytes) * y + (i + 1)) := by
      omega
    have hbyte := (hin y hy).2 i hi
    rw [haddr] at hbyte
    rw [overlay_line hi.le, haddr, read_ahead hbehind hy hi (Nat.le_succ i), hbyte]
  · intro p hp i hi j hj
    by_cases hy0 : y = 0
    · rw [if_pos hy0] at hp
      cases hp
    · rw [if_neg hy0] at hp
      obtain rfl := Option.some.inj hp
      have hprev : linebytes * (y - 1) + linebytes = linebytes * y := by
        rw [← Nat.mul_succ, Nat.succ_eq_add_one, Nat.sub_add_cancel (by omega)]
      rw [overlay_line hi.le, Nat.add_assoc, overlay_inside (by omega), flat_line (by omega), above,
        if_neg hy0]
  · intro hnone i
    by_cases hy0 : y = 0
    · rw [above, if_pos hy0]
    · rw [if_neg hy0] at hnone
      cases hnone

/-- The loop over the lines, behind the first `y` ones. -/
theorem unfilterLoop_eq (hin : FilteredAt m inp bytewidth linebytes h types raw)
    (hbehind : WritesBehind out inp ((1 + linebytes) * h)) (hpos : 0 < bytewidth)
    (hlen : bytewidth ≤ linebytes) (hsize : (1 + linebytes) * h < 2 ^ 32) :
    ∀ {n y : ℕ}, y + n = h →
      unfilterLoop out inp bytewidth linebytes n y
        (if y = 0 then none else some (out + linebytes * (y - 1)))
        (overlay m out (linebytes * y) (flat linebytes raw)) =
      .ok (overlay m out (linebytes * h) (flat linebytes raw)) := by
  intro n
  induction n with
  | zero => rintro y rfl; rfl
  | succ n ih =>
    intro y hy
    have hlt : y < h := by omega
    have hrow : (1 + linebytes) * y ≤ (1 + linebytes) * h := Nat.mul_le_mul_left _ hlt.le
    have hsplit : (1 + linebytes) * y = y + linebytes * y := by ring
    have htype : overlay m out (linebytes * y + 0) (flat linebytes raw)
        (inp + ((1 + linebytes) * y + 0)) = m (inp + ((1 + linebytes) * y + 0)) :=
      read_ahead hbehind hlt (Nat.zero_le _) le_rfl
    have hnext := ih (y := y + 1) (by omega)
    rw [if_neg (by omega), Nat.add_sub_cancel, Nat.mul_succ, ← overlay_line le_rfl] at hnext
    rw [Nat.add_zero, Nat.add_zero, (hin y hlt).1] at htype
    rw [unfilterLoop, Nat.mod_eq_of_lt (by omega), Nat.mod_eq_of_lt (by omega), htype,
      unfilterScanline_eq (lineReady hin hbehind hlt) hpos hlen, Machine.ok_bind]
    exact hnext

/-- **Filtered lines are taken back to the image**, whatever filter each line has, also in place. -/
theorem unfilter_eq {w bpp : ℕ} (hw : 0 < w) (hbpp : 0 < bpp) (hover : w * bpp + 7 < 2 ^ 32)
    (hin : FilteredAt m inp ((bpp + 7) / 8) ((w * bpp + 7) / 8) h types raw)
    (hbehind : WritesBehind out inp ((1 + (w * bpp + 7) / 8) * h))
    (hsize : (1 + (w * bpp + 7) / 8) * h < 2 ^ 32) :
    unfilter out inp w h bpp m =
      .ok (overlay m out ((w * bpp + 7) / 8 * h) (flat ((w * bpp + 7) / 8) raw)) := by
  have hle : bpp ≤ w * bpp := Nat.le_mul_of_pos_left bpp hw
  have hloop := unfilterLoop_eq hin hbehind (by omega) (by omega) hsize (Nat.zero_add h)
  rw [Nat.mul_zero, overlay_zero, if_pos rfl] at hloop
  rw [unfilter, Nat.mod_eq_of_lt hover, hloop]

/-! ## What is accepted -/

/-- The line that a filter was given, from what it made of it. -/
def restored (t : FilterType) (bytewidth : ℕ) (prior s : Bytes) (i : ℕ) : UInt8 :=
  s i + t.predict (if _ : 0 < bytewidth ∧ bytewidth ≤ i then
    restored t bytewidth prior s (i - bytewidth) else 0) (prior i) (leftOf bytewidth prior i)
termination_by i

theorem restored_eq {t : FilterType} {prior s : Bytes} (hpos : 0 < bytewidth) (i : ℕ) :
    restored t bytewidth prior s i = s i + t.predict (leftOf bytewidth
      (restored t bytewidth prior s) i) (prior i) (leftOf bytewidth prior i) := by
  have hleft : leftOf bytewidth (restored t bytewidth prior s) i =
      if _ : 0 < bytewidth ∧ bytewidth ≤ i then
        restored t bytewidth prior s (i - bytewidth) else 0 := by
    rw [leftOf]
    by_cases hi : bytewidth ≤ i
    · rw [dif_pos ⟨hpos, hi⟩, if_neg (Nat.not_lt.mpr hi)]
    · rw [dif_neg fun h => hi h.2, if_pos (Nat.not_le.mp hi)]
  rw [hleft]
  conv_lhs => rw [restored]

theorem residual_restored {t : FilterType} {prior s : Bytes} (hpos : 0 < bytewidth) (i : ℕ) :
    residual t bytewidth prior (restored t bytewidth prior s) i = s i := by
  rw [residual, restored_eq hpos]
  exact add_sub_cancel_right _ _

theorem exists_code {b : UInt8} (hb : b ≤ 4) : ∃ t : FilterType, t.code = b := by
  have hle : b.toNat ≤ 4 := hb
  have hof : UInt8.ofNat b.toNat = b := UInt8.ofNat_toNat
  rw [← hof]
  interval_cases b.toNat
  · exact ⟨.none, rfl⟩
  · exact ⟨.sub, rfl⟩
  · exact ⟨.up, rfl⟩
  · exact ⟨.average, rfl⟩
  · exact ⟨.paeth, rfl⟩

/-- Lines with the types of filters are the filtered lines of an image. -/
theorem exists_filtered (hpos : 0 < bytewidth)
    (htypes : ∀ y < h, m (inp + (1 + linebytes) * y) ≤ 4) :
    ∃ types raw, FilteredAt m inp bytewidth linebytes h types raw := by
  have hcode : ∀ y, ∃ t : FilterType, y < h → t.code = m (inp + (1 + linebytes) * y) := by
    intro y
    by_cases hy : y < h
    · obtain ⟨t, ht⟩ := exists_code (htypes y hy)
      exact ⟨t, fun _ => ht⟩
    · exact ⟨.none, fun h => absurd h hy⟩
  choose types htype using hcode
  -- the lines from the top, each one from the line above
  let line : ℕ → Bytes := Nat.rec (fun _ => 0) fun y prior => restored (types y) bytewidth prior
    fun i => m (inp + ((1 + linebytes) * y + 1) + i)
  have habove : ∀ y, above (fun y => line (y + 1)) y = line y := by
    intro y
    cases y with
    | zero => rfl
    | succ y => rfl
  refine ⟨types, fun y => line (y + 1), fun y hy => ⟨(htype y hy).symm, fun i _ => ?_⟩⟩
  rw [habove]
  exact (residual_restored (s := fun i => m (inp + ((1 + linebytes) * y + 1) + i)) hpos i).symm

/-- A line is filled in, or the type of its filter is refused. -/
theorem unfilterScanline_cases {recon scanline length : ℕ} (precon : Option ℕ) (filterType : UInt8)
    (hlen : bytewidth ≤ length) :
    (filterType ≤ 4 ∧ ∃ m', unfilterScanline recon scanline precon bytewidth filterType length m =
      .ok m' ∧ ∀ a, a < recon ∨ recon + length ≤ a → m' a = m a) ∨
    (4 < filterType ∧
      unfilterScanline recon scanline precon bytewidth filterType length m = malformed) := by
  have hone : ∀ {f : Bytes → ℕ → UInt8} a, a < recon ∨ recon + length ≤ a →
      fill recon f length 0 m a = m a := fun a ha => fill_outside (by omega)
  have htwo : ∀ {f g : Bytes → ℕ → UInt8} a, a < recon ∨ recon + length ≤ a →
      fill recon g (length - bytewidth) bytewidth (fill recon f bytewidth 0 m) a = m a := by
    intro f g a ha
    rw [fill_outside (by omega), fill_outside (by omega)]
  by_cases hle : filterType ≤ 4
  · refine .inl ⟨hle, ?_⟩
    obtain ⟨t, rfl⟩ := exists_code hle
    cases t with
    | none => exact ⟨_, rfl, hone⟩
    | sub => exact ⟨_, rfl, htwo⟩
    | up => cases precon with
      | none => exact ⟨_, rfl, hone⟩
      | some p => exact ⟨_, rfl, hone⟩
    | average => cases precon with
      | none => exact ⟨_, rfl, htwo⟩
      | some p => exact ⟨_, rfl, htwo⟩
    | paeth => cases precon with
      | none => exact ⟨_, rfl, htwo⟩
      | some p => exact ⟨_, rfl, htwo⟩
  · have hlt : 4 < filterType := UInt8.not_le.mp hle
    have hnat : 4 < filterType.toNat := hlt
    refine .inr ⟨hlt, ?_⟩
    unfold unfilterScanline
    dsimp only
    split <;> first | rfl | omega

/-- A line with an unknown filter ends the loop. -/
theorem unfilterLoop_malformed (hbehind : WritesBehind out inp ((1 + linebytes) * h))
    (hlen : bytewidth ≤ linebytes) (hsize : (1 + linebytes) * h < 2 ^ 32) {k : ℕ} (hk : k < h)
    (hbad : 4 < m (inp + (1 + linebytes) * k)) :
    ∀ {n y : ℕ} {prevline : Option ℕ} {m' : Bytes}, y + n = h → y ≤ k →
      (∀ j, y ≤ j → j < h → m' (inp + (1 + linebytes) * j) = m (inp + (1 + linebytes) * j)) →
      unfilterLoop out inp bytewidth linebytes n y prevline m' = malformed := by
  intro n
  induction n with
  | zero => intro y _ _ hy hyk _; omega
  | succ n ih =>
    intro y prevline m' hy hyk hsame
    have hrow : (1 + linebytes) * y + (1 + linebytes) ≤ (1 + linebytes) * h := by
      rw [← Nat.mul_succ]
      exact Nat.mul_le_mul_left _ (by omega)
    have hsplit : (1 + linebytes) * y = y + linebytes * y := by ring
    rw [unfilterLoop, Nat.mod_eq_of_lt (by omega), Nat.mod_eq_of_lt (by omega)]
    rcases unfilterScanline_cases prevline (m' (inp + (1 + linebytes) * y)) hlen with
      ⟨hle, m'', hok, hframe⟩ | ⟨_, hmalformed⟩
    · have hne : y ≠ k := by
        rintro rfl
        rw [hsame y le_rfl hk] at hle
        exact UInt8.not_le.mpr hbad hle
      rw [hok, Machine.ok_bind]
      refine ih (by omega) (by omega) fun j hj hjh => ?_
      rw [hframe, hsame j (by omega) hjh]
      have hnext : (1 + linebytes) * y + (1 + linebytes) ≤ (1 + linebytes) * j := by
        rw [← Nat.mul_succ]
        exact Nat.mul_le_mul_left _ hj
      rcases hbehind with hle | hle
      · right
        omega
      · left
        have : (1 + linebytes) * j < (1 + linebytes) * h :=
          Nat.mul_lt_mul_of_pos_left hjh (by omega)
        omega
    · rw [hmalformed]
      rfl

/-- **Unfiltering inverts filtering, in place too.** Filtered lines are taken back to the image
whatever filter each line has; every data whose filters are known are the filtered lines of some
image; and an unknown filter is refused. -/
theorem unfilter_inverts {w bpp : ℕ} (hw : 0 < w) (hbpp : 0 < bpp)
    (hover : w * bpp + 7 < 2 ^ 32) (hsize : (1 + (w * bpp + 7) / 8) * h < 2 ^ 32)
    (hbehind : WritesBehind out inp ((1 + (w * bpp + 7) / 8) * h)) (m : Bytes) :
    (∀ types raw, FilteredAt m inp ((bpp + 7) / 8) ((w * bpp + 7) / 8) h types raw →
      unfilter out inp w h bpp m =
        .ok (overlay m out ((w * bpp + 7) / 8 * h) (flat ((w * bpp + 7) / 8) raw))) ∧
    ((∀ y < h, m (inp + (1 + (w * bpp + 7) / 8) * y) ≤ 4) →
      ∃ types raw, FilteredAt m inp ((bpp + 7) / 8) ((w * bpp + 7) / 8) h types raw) ∧
    ((∃ y < h, 4 < m (inp + (1 + (w * bpp + 7) / 8) * y)) →
      unfilter out inp w h bpp m = malformed) := by
  have hle : bpp ≤ w * bpp := Nat.le_mul_of_pos_left bpp hw
  refine ⟨fun types raw hin => unfilter_eq hw hbpp hover hin hbehind hsize,
    exists_filtered (by omega), ?_⟩
  rintro ⟨k, hk, hbad⟩
  rw [unfilter, Nat.mod_eq_of_lt hover]
  exact unfilterLoop_malformed hbehind (by omega) hsize hk hbad (Nat.zero_add h) (Nat.zero_le k)
    fun _ _ _ => rfl

/-- A line of two pixels, with the difference to the pixel on the left. -/
theorem unfilter_inverts_sub : unfilter 8 0 2 1 8 (fun i => [1, 5, 3].getD i 0) =
    .ok (overlay (fun i => [1, 5, 3].getD i 0) 8 (2 * 1) (flat 2 fun _ i => [5, 8].getD i 0)) := by
  refine (unfilter_inverts (by decide) (by decide) (by decide) (by decide)
    (.inr (by decide)) _).1 (fun _ => .sub) _ fun y hy => ⟨?_, fun i hi => ?_⟩
  · obtain rfl : y = 0 := by omega
    rfl
  · obtain rfl : y = 0 := by omega
    have hi' : i < 2 := hi
    interval_cases i <;> rfl

end Image

/-! ## Padding bits -/

/-- The bits of a memory, those of a byte from the highest one on. -/
def bitsOf (m : Bytes) : ℕ → Bool := fun k => (m (k / 8)).toNat.testBit (7 - k % 8)

section Padding

variable {out inp obp ibp : ℕ} {m : Bytes}

theorem set_bit {i j : ℕ} (hi : i < 8) (hj : j < 8) (v : UInt8) :
    (v ||| 1 <<< UInt8.ofNat i).toNat.testBit j = (decide (i = j) || v.toNat.testBit j) ∧
      (v &&& ~~~(1 <<< UInt8.ofNat i)).toNat.testBit j =
        (!decide (i = j) && v.toNat.testBit j) := by
  have hmask : ((1 : UInt8) <<< UInt8.ofNat i).toNat = 2 ^ i := by
    interval_cases i <;> rfl
  have hpow : 2 ^ i < 2 ^ 8 := Nat.pow_lt_pow_right (by decide) hi
  have hnot : UInt8.size - 1 - 2 ^ i = 2 ^ 8 - (2 ^ i + 1) := by
    rw [Nat.sub_sub, Nat.add_comm]
    rfl
  rw [UInt8.toNat_or, UInt8.toNat_and, UInt8.toNat_not, hmask, hnot, Nat.testBit_or,
    Nat.testBit_and, Nat.testBit_two_pow_sub_succ hpow, Nat.testBit_two_pow, decide_eq_true hj,
    Bool.true_and, Bool.or_comm, Bool.and_comm]
  exact ⟨rfl, rfl⟩

/-- **One bit is copied**, and no other one changes. -/
theorem bitsOf_copyBit : bitsOf (copyBit out inp obp ibp m) =
    Function.update (bitsOf m) (8 * out + obp) (bitsOf m (8 * inp + ibp)) := by
  have hread : (m (inp + ibp >>> 3)).toNat >>> (7 - (ibp &&& 0x7)) &&& 1 =
      (bitsOf m (8 * inp + ibp)).toNat := by
    have hdiv : (8 * inp + ibp) / 8 = inp + ibp / 8 := Nat.mul_add_div (by decide) _ _
    rw [bitsOf, hdiv, Nat.mul_add_mod, shiftRight_three, and_seven, Nat.testBit, Nat.and_comm]
    rcases Nat.mod_two_eq_zero_or_one ((m (inp + ibp / 8)).toNat >>> (7 - ibp % 8)) with h | h <;>
      simp [Nat.one_and_eq_mod_two, h]
  funext k
  rw [copyBit, hread, shiftRight_three, and_seven]
  show (Function.update m (out + obp / 8) _ (k / 8)).toNat.testBit (7 - k % 8) = _
  have hmod : k % 8 < 8 := Nat.mod_lt _ (by decide)
  by_cases hbyte : k / 8 = out + obp / 8
  · rw [hbyte, Function.update_self]
    have hset := set_bit (i := 7 - obp % 8) (j := 7 - k % 8) (by omega) (by omega)
      (m (out + obp / 8))
    by_cases hk : k = 8 * out + obp
    · have heq : 7 - obp % 8 = 7 - k % 8 := by omega
      rw [decide_eq_true heq] at hset
      rw [hk, Function.update_self, ← hk]
      cases bitsOf m (8 * inp + ibp)
      · rw [if_pos Bool.toNat_false, hset.2]
        rfl
      · rw [if_neg (by decide), hset.1]
        rfl
    · have hne : 7 - obp % 8 ≠ 7 - k % 8 := by omega
      have hsame : bitsOf m k = (m (out + obp / 8)).toNat.testBit (7 - k % 8) := by
        rw [bitsOf, hbyte]
      rw [decide_eq_false hne] at hset
      rw [Function.update_of_ne hk, hsame]
      cases bitsOf m (8 * inp + ibp)
      · rw [if_pos Bool.toNat_false, hset.2]
        rfl
      · rw [if_neg (by decide), hset.1]
        rfl
  · rw [Function.update_of_ne hbyte, Function.update_of_ne (by omega), bitsOf]

variable {r : ℕ → Bool}

/-- The bits of a line are copied, behind those of the lines before. -/
theorem bitsOf_copyBits : ∀ {n obp ibp : ℕ} {m' : Bytes}, obp + n < 2 ^ 32 → ibp + n < 2 ^ 32 →
    (∀ j < n, 8 * inp + (ibp + j) < 8 * out ∨ 8 * out + (obp + j) ≤ 8 * inp + (ibp + j)) →
    (∀ j < n, r (obp + j) = bitsOf m (8 * inp + (ibp + j))) →
    bitsOf m' = overlay (bitsOf m) (8 * out) obp r →
    bitsOf (copyBits out inp n obp ibp m') = overlay (bitsOf m) (8 * out) (obp + n) r := by
  intro n
  induction n with
  | zero => intro obp ibp m' _ _ _ _ hm; exact hm
  | succ n ih =>
    intro obp ibp m' hobp hibp hread hr hm
    have hbit := hr 0 (Nat.succ_pos n)
    have hahead := hread 0 (Nat.succ_pos n)
    have hnext : bitsOf (copyBit out inp obp ibp m') =
        overlay (bitsOf m) (8 * out) (obp + 1) r := by
      rw [bitsOf_copyBit, hm, overlay_succ, overlay_outside (by omega)]
      exact congrArg _ hbit.symm
    rw [copyBits, Nat.mod_eq_of_lt (by omega), Nat.mod_eq_of_lt (by omega),
      ih (by omega) (by omega) (fun j hj => ?_) (fun j hj => ?_) hnext, Nat.add_right_comm,
      Nat.add_assoc]
    · have := hread (j + 1) (by omega)
      omega
    · rw [Nat.add_assoc, Nat.add_assoc ibp, Nat.add_comm 1 j]
      exact hr (j + 1) (by omega)

/-- The bits of lines that are packed without padding. -/
def packedBits (m : Bytes) (inp olinebits ilinebits : ℕ) : ℕ → Bool := fun k =>
  bitsOf m (8 * inp + (ilinebits * (k / olinebits) + k % olinebits))

/-- The loop over the lines, behind the first `y` ones. -/
theorem bitsOf_removeLoop {olinebits ilinebits h : ℕ} (hle : olinebits ≤ ilinebits)
    (hsize : ilinebits * h < 2 ^ 32) (hbehind : out ≤ inp ∨ 8 * inp + ilinebits * h ≤ 8 * out) :
    ∀ {n y : ℕ} {m' : Bytes}, y + n = h →
      bitsOf m' = overlay (bitsOf m) (8 * out) (olinebits * y)
        (packedBits m inp olinebits ilinebits) →
      bitsOf (removeLoop out inp olinebits (ilinebits - olinebits) n (olinebits * y)
        (ilinebits * y) m') =
        overlay (bitsOf m) (8 * out) (olinebits * h) (packedBits m inp olinebits ilinebits) := by
  intro n
  induction n with
  | zero => rintro y m' rfl hm; exact hm
  | succ n ih =>
    intro y m' hy hm
    have hrow : ilinebits * (y + 1) ≤ ilinebits * h := Nat.mul_le_mul_left _ (by omega)
    have hline : olinebits * y ≤ ilinebits * y := Nat.mul_le_mul_right y hle
    have hobp : olinebits * y + olinebits = olinebits * (y + 1) := (Nat.mul_succ _ _).symm
    have hibp : ilinebits * y + olinebits + (ilinebits - olinebits) = ilinebits * (y + 1) := by
      rw [Nat.mul_succ]
      omega
    have hsucc := Nat.mul_succ ilinebits y
    have hpacked : ∀ j < olinebits, packedBits m inp olinebits ilinebits (olinebits * y + j) =
        bitsOf m (8 * inp + (ilinebits * y + j)) := by
      intro j hj
      rw [packedBits, Nat.mul_add_div (by omega), Nat.mul_add_mod, Nat.div_eq_of_lt hj,
        Nat.mod_eq_of_lt hj, Nat.add_zero]
    have hbits := @bitsOf_copyBits out _ m _ olinebits _ _ _ (by omega) (by omega)
      (fun j hj => by omega) hpacked hm
    rw [hobp] at hbits
    rw [removeLoop, hobp, hibp, Nat.mod_eq_of_lt (by omega), Nat.mod_eq_of_lt (by omega)]
    exact ih (by omega) hbits

/-- **The padding is removed**, in place too: the bits of a line stand behind those of the line
before, and no other bits change. -/
theorem bitsOf_removePaddingBits {olinebits ilinebits h : ℕ} (hle : olinebits ≤ ilinebits)
    (hsize : ilinebits * h < 2 ^ 32) (hbehind : out ≤ inp ∨ 8 * inp + ilinebits * h ≤ 8 * out) :
    bitsOf (removePaddingBits out inp olinebits ilinebits h m) =
      overlay (bitsOf m) (8 * out) (olinebits * h) (packedBits m inp olinebits ilinebits) := by
  cases h with
  | zero => rw [Nat.mul_zero, overlay_zero]; rfl
  | succ h =>
    have hone : ilinebits ≤ ilinebits * (h + 1) := Nat.le_mul_of_pos_right _ (Nat.succ_pos h)
    rw [removePaddingBits, sub32_of_le hle (by omega)]
    exact bitsOf_removeLoop hle hsize hbehind (Nat.zero_add (h + 1)) (by
      rw [Nat.mul_zero, overlay_zero])

end Padding

/-! ## The image -/

/-- Bit `x` of line `y`. -/
def lineBit (raw : ℕ → Bytes) (y x : ℕ) : Bool := (raw y (x / 8)).toNat.testBit (7 - x % 8)

theorem bitsOf_flat {m : Bytes} {base linebytes h y x : ℕ} {raw : ℕ → Bytes} (hy : y < h)
    (hx : x < linebytes * 8) :
    bitsOf (overlay m base (linebytes * h) (flat linebytes raw))
      (8 * base + (linebytes * 8 * y + x)) = lineBit raw y x := by
  have hrow : linebytes * y + linebytes ≤ linebytes * h := by
    rw [← Nat.mul_succ]
    exact Nat.mul_le_mul_left _ hy
  have hsplit : linebytes * 8 * y = 8 * (linebytes * y) := by ring
  have hbyte : (8 * base + (linebytes * 8 * y + x)) / 8 = base + (linebytes * y + x / 8) := by
    omega
  have hbit : (8 * base + (linebytes * 8 * y + x)) % 8 = x % 8 := by omega
  rw [bitsOf, hbyte, hbit, overlay_inside (by omega), flat_line (by omega), lineBit]

theorem bitsOf_overlay_outside {m r : Bytes} {base n k : ℕ}
    (hk : k < 8 * base ∨ 8 * (base + n) ≤ k) : bitsOf (overlay m base n r) k = bitsOf m k := by
  rw [bitsOf, overlay_outside (by omega), bitsOf]

/-- **The lines of the image come out without filters and without padding**, whether a pixel has
some bits or some bytes, and nothing else is written but the lines that are unfiltered in
place. -/
theorem postProcessScanlines_eq {m : Bytes} {out inp w h bpp : ℕ} {types : ℕ → FilterType}
    {raw : ℕ → Bytes} (hw : 0 < w) (hbpp : 0 < bpp) (hdepth : bpp < 8 ∨ bpp % 8 = 0)
    (hsize : 8 * ((1 + (w * bpp + 7) / 8) * h) < 2 ^ 32) (hover : w * bpp + 7 < 2 ^ 32)
    (hin : FilteredAt m inp ((bpp + 7) / 8) ((w * bpp + 7) / 8) h types raw)
    (hapart : out + (w * bpp + 7) / 8 * h ≤ inp ∨ inp + (1 + (w * bpp + 7) / 8) * h ≤ out) :
    ∃ m', postProcessScanlines out inp w h bpp m = .ok m' ∧
      (∀ y < h, ∀ x < w * bpp, bitsOf m' (8 * out + (w * bpp * y + x)) = lineBit raw y x) ∧
      ∀ k, k < 8 * out ∨ 8 * out + w * bpp * h ≤ k →
        k < 8 * inp ∨ 8 * (inp + (w * bpp + 7) / 8 * h) ≤ k → bitsOf m' k = bitsOf m k := by
  obtain ⟨linebytes, hline⟩ : ∃ l, l = (w * bpp + 7) / 8 := ⟨_, rfl⟩
  rw [← hline] at hsize hin hapart ⊢
  have hfilled : w * bpp ≤ linebytes * 8 := by omega
  have hsplit : (1 + linebytes) * h = h + linebytes * h := by ring
  have hbits : linebytes * 8 * h = 8 * (linebytes * h) := by ring
  rw [postProcessScanlines, Nat.mod_eq_of_lt hover,
    Nat.mod_eq_of_lt (by omega : w * bpp < 2 ^ 32), if_neg hbpp.ne', ← hline]
  have hunfilter : ∀ base, WritesBehind base inp ((1 + linebytes) * h) →
      unfilter base inp w h bpp m =
        .ok (overlay m base (linebytes * h) (flat linebytes raw)) := by
    intro base hbehind
    subst hline
    exact unfilter_eq hw hbpp hover hin hbehind (by omega)
  by_cases hpadded : bpp < 8 ∧ w * bpp ≠ linebytes * 8
  · -- the lines are unfiltered in place, and packed into the buffer
    rw [if_pos hpadded, hunfilter inp (.inl le_rfl), Machine.ok_bind]
    have hremove : bitsOf (removePaddingBits out inp (w * bpp) (linebytes * 8) h
        (overlay m inp (linebytes * h) (flat linebytes raw))) = _ :=
      bitsOf_removePaddingBits hfilled (by omega) (by omega)
    refine ⟨_, rfl, fun y hy x hx => ?_, fun k hout hinp => ?_⟩
    · have hlast : w * bpp * y + w * bpp ≤ w * bpp * h := by
        rw [← Nat.mul_succ]
        exact Nat.mul_le_mul_left _ hy
      rw [hremove, overlay_inside (by omega), packedBits, Nat.mul_add_div (by omega),
        Nat.mul_add_mod, Nat.div_eq_of_lt hx, Nat.mod_eq_of_lt hx, Nat.add_zero]
      exact bitsOf_flat hy (hx.trans_le hfilled)
    · rw [hremove, overlay_outside hout, bitsOf_overlay_outside hinp]
  · have hexact : w * bpp = linebytes * 8 := by
      rcases hdepth with hlt | hmod
      · by_contra hne
        exact hpadded ⟨hlt, hne⟩
      · have := Nat.mul_mod w bpp 8
        rw [hmod, Nat.mul_zero, Nat.zero_mod] at this
        omega
    rw [if_neg hpadded, hunfilter out (hapart.imp (by omega) id), hexact]
    refine ⟨_, rfl, fun y hy x hx => bitsOf_flat hy hx, fun k hout _ => ?_⟩
    exact bitsOf_overlay_outside (by omega)

end AuroraOS
