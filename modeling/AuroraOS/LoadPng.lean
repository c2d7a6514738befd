/-
# Loading an image

`load_png` of `gui/gui_objs.c`: a file is read from the file system, decoded, and packed into an
array with a word for every pixel.  With the decoder, the way of an image from the blocks of the
file system to the words that the drawing functions blend is complete.
-/
import AuroraOS.PngEncode
import AuroraOS.ReadData

namespace AuroraOS

open Machine Overlay

/-! ## The code -/

/-- The size of `_png_data` in bytes. -/
abbrev pngDataSize : ℕ := 3145728

/-- A byte of the decoded image, as an `int`. -/
def imageByte (m : Bytes) (buffer i : ℕ) : BitVec 32 := (m (buffer + i)).toBitVec.setWidth 32

/-- The word for the pixel at `idx`; `none` for a pixel of another size. -/
def pngPixel (m : Bytes) (buffer pxSize idx : ℕ) : Option (BitVec 32) :=
  if pxSize = 3 then
    some ((0xFF000000 : BitVec 32) ||| imageByte m buffer idx <<< 16 |||
      imageByte m buffer (idx + 1) <<< 8 ||| imageByte m buffer (idx + 2))
  else if pxSize = 4 then
    some (imageByte m buffer (idx + 3) <<< 24 ||| imageByte m buffer idx <<< 16 |||
      imageByte m buffer (idx + 1) <<< 8 ||| imageByte m buffer (idx + 2))
  else none

section Loops

variable (m : Bytes) (buffer width pxSize : ℕ)

/-- The loop over the pixels of line `j`, from pixel `i` on: whether it ends without an error, and
the array. -/
def pixelLoop (j : ℕ) : ℕ → ℕ → (ℕ → BitVec 32) → Bool × (ℕ → BitVec 32)
  | 0, _, data => (true, data)
  | n + 1, i, data =>
    match pngPixel m buffer pxSize ((j * width + i) * pxSize % 2 ^ 32) with
    | none => (false, data)
    | some argb => pixelLoop j n (i + 1) (Function.update data ((j * width + i) % 2 ^ 32) argb)

/-- The loop over the lines, from line `j` on. -/
def lineLoop : ℕ → ℕ → (ℕ → BitVec 32) → Bool × (ℕ → BitVec 32)
  | 0, _, data => (true, data)
  | n + 1, j, data =>
    let (ok, data) := pixelLoop m buffer width pxSize j width 0 data
    if ok then lineLoop n (j + 1) data else (false, data)

end Loops

/-- `load_png`: the value returned, and the array `png_data`.  `inflated`, `pngBuf` and `m` are
the buffers of the decoder; a file that cannot be read counts as one of 2³² - 1 bytes. -/
def loadPng (img : FsImage) (fname : List UInt8) (one : List UInt8) (inflated pngBuf : ℕ)
    (m : Bytes) (data : ℕ → BitVec 32) : Except Stop (ℤ × (ℕ → BitVec 32)) :=
  match img.readDentryByName fname with
  | none => .ok (-1, data)
  | some testPng =>
    match img.readData testPng.inodeNum 0 pngDataSize with
    | none => .error (.outOfBounds .source)
    | some file =>
      if file.length = pngDataSize then .ok (-1, data)
      else do
        let (upng, m) ← upngDecode one inflated m
          { upngNewFromFile file with buffer := some pngBuf }
        if upng.error ≠ none then .ok (-1, data)
        else
          let (ok, data) := lineLoop m pngBuf upng.width (upng.pixelsize / 8) upng.height 0 data
          .ok (if ok then 0 else -1, data)

/-! ## Pixels -/

/-- The word for pixel `x` of line `y`: its alpha, or 255, and red, green and blue. -/
def Png.argb (png : Png) (y x : ℕ) : BitVec 32 :=
  let byte (k : ℕ) : BitVec 8 := (png.lines y (png.bpp / 8 * x + k)).toBitVec
  (if png.colorType = upngRgba then byte 3 else 255) ++ byte 0 ++ byte 1 ++ byte 2

/-- Bytes that are shifted and joined stand one behind the other. -/
theorem pack_append (a r g b : BitVec 8) :
    a.setWidth 32 <<< 24 ||| r.setWidth 32 <<< 16 ||| g.setWidth 32 <<< 8 ||| b.setWidth 32 =
      (a ++ r ++ g ++ b : BitVec 32) := by
  have hword : ∀ (c : BitVec 8) {n : ℕ}, n ≤ 24 →
      (c.setWidth 32 <<< n).toNat = c.toNat <<< n := by
    intro c n hn
    have hc := c.isLt
    have hpow : 2 ^ n ≤ 2 ^ 24 := Nat.pow_le_pow_right (by decide) hn
    have hlt : c.toNat * 2 ^ n < 2 ^ 8 * 2 ^ 24 := Nat.mul_lt_mul_of_lt_of_le hc hpow (by decide)
    have hsmall : c.toNat % 2 ^ 32 = c.toNat := Nat.mod_eq_of_lt (by omega)
    rw [BitVec.toNat_shiftLeft, BitVec.toNat_setWidth, hsmall, Nat.shiftLeft_eq,
      Nat.mod_eq_of_lt (by omega)]
  have hlast := hword b (Nat.zero_le 24)
  rw [BitVec.shiftLeft_zero, Nat.shiftLeft_zero] at hlast
  apply BitVec.eq_of_toNat_eq
  rw [BitVec.toNat_or, BitVec.toNat_or, BitVec.toNat_or, hword a le_rfl, hword r (by decide),
    hword g (by decide), hlast, BitVec.toNat_append, BitVec.toNat_append, BitVec.toNat_append,
    Nat.shiftLeft_or_distrib, Nat.shiftLeft_or_distrib, Nat.shiftLeft_or_distrib,
    ← Nat.shiftLeft_add, ← Nat.shiftLeft_add, ← Nat.shiftLeft_add]

/-- Eight bits make a byte. -/
theorem byte_of_bits {m : Bytes} {a : ℕ} {b : UInt8}
    (h : ∀ t < 8, bitsOf m (8 * a + t) = b.toNat.testBit (7 - t)) : m a = b := by
  apply UInt8.toNat_inj.mp
  apply Nat.eq_of_testBit_eq
  intro i
  by_cases hi : i < 8
  · have hbit := h (7 - i) (by omega)
    have hdiv : (8 * a + (7 - i)) / 8 = a := by omega
    have hmod : (8 * a + (7 - i)) % 8 = 7 - i := by omega
    rw [bitsOf, hdiv, hmod, Nat.sub_sub_self (by omega)] at hbit
    exact hbit
  · have hlarge : 2 ^ 8 ≤ 2 ^ i := Nat.pow_le_pow_right (by decide) (by omega)
    rw [Nat.testBit_lt_two_pow ((m a).toNat_lt.trans_le hlarge),
      Nat.testBit_lt_two_pow (b.toNat_lt.trans_le hlarge)]

/-- The pixels that are packed into words: three or four bytes. -/
def Png.Packed (png : Png) : Prop :=
  png.colorType = upngRgb ∧ png.colorDepth = 8 ∨ png.colorType = upngRgba ∧ png.colorDepth = 8

theorem Png.Packed.bpp_eq {png : Png} (h : png.Packed) :
    png.bpp = 24 ∧ png.colorType ≠ upngRgba ∨ png.bpp = 32 ∧ png.colorType = upngRgba := by
  rcases h with ⟨htype, hdepth⟩ | ⟨htype, hdepth⟩
  · rw [Png.bpp, htype, hdepth]
    decide
  · rw [Png.bpp, htype, hdepth]
    decide

/-- **A pixel is packed** as the image has it. -/
theorem pngPixel_eq {png : Png} (hpacked : png.Packed) {m : Bytes} {buffer idx y x : ℕ}
    (hbytes : ∀ k < png.bpp / 8, m (buffer + (idx + k)) = png.lines y (png.bpp / 8 * x + k)) :
    pngPixel m buffer (png.bpp / 8) idx = some (png.argb y x) := by
  have hbyte : ∀ k < png.bpp / 8, imageByte m buffer (idx + k) =
      (png.lines y (png.bpp / 8 * x + k)).toBitVec.setWidth 32 := by
    intro k hk
    rw [imageByte, hbytes k hk]
  rw [pngPixel]
  rcases hpacked.bpp_eq with ⟨hbpp, htype⟩ | ⟨hbpp, htype⟩
  · have h0 := hbyte 0 (by omega)
    rw [Nat.add_zero] at h0
    have hfull : (0xFF000000 : BitVec 32) = (255 : BitVec 8).setWidth 32 <<< 24 := by decide
    rw [if_pos (by omega), h0, hbyte 1 (by omega), hbyte 2 (by omega), hfull, pack_append, Png.argb,
      if_neg htype]
  · have h0 := hbyte 0 (by omega)
    rw [Nat.add_zero] at h0
    rw [if_neg (by omega), if_pos (by omega), h0, hbyte 1 (by omega), hbyte 2 (by omega),
      hbyte 3 (by omega), pack_append, Png.argb, if_pos htype]

/-! ## Loading -/

section Loading

variable {m : Bytes} {buffer width height pxSize : ℕ} {argb : ℕ → ℕ → BitVec 32}
  {data : ℕ → BitVec 32}

/-- The words of an image, line by line. -/
def words (width : ℕ) (argb : ℕ → ℕ → BitVec 32) : ℕ → BitVec 32 := fun k =>
  argb (k / width) (k % width)

theorem words_at {j i : ℕ} (hi : i < width) : words width argb (j * width + i) = argb j i := by
  rw [words, Nat.mul_comm, Nat.mul_add_div (by omega), Nat.mul_add_mod, Nat.div_eq_of_lt hi,
    Nat.mod_eq_of_lt hi, Nat.add_zero]

/-- A line of words is stored behind the lines before. -/
theorem pixelLoop_eq {j : ℕ} (hline : j * width + width < 2 ^ 32)
    (hpixel : ∀ i < width, pngPixel m buffer pxSize ((j * width + i) * pxSize % 2 ^ 32) =
      some (argb j i)) : ∀ {n i : ℕ}, i + n = width →
    pixelLoop m buffer width pxSize j n i (overlay data 0 (j * width + i) (words width argb)) =
      (true, overlay data 0 (j * width + width) (words width argb)) := by
  intro n
  induction n with
  | zero => rintro i rfl; rfl
  | succ n ih =>
    intro i hi
    have hnext := ih (i := i + 1) (by omega)
    rw [← Nat.add_assoc, overlay_succ, Nat.zero_add, words_at (by omega)] at hnext
    rw [pixelLoop, hpixel i (by omega), Nat.mod_eq_of_lt (by omega)]
    exact hnext

/-- All lines are stored. -/
theorem lineLoop_eq (hsize : height * width < 2 ^ 32)
    (hpixel : ∀ j < height, ∀ i < width,
      pngPixel m buffer pxSize ((j * width + i) * pxSize % 2 ^ 32) = some (argb j i)) :
    ∀ {n j : ℕ}, j + n = height →
      lineLoop m buffer width pxSize n j (overlay data 0 (j * width) (words width argb)) =
        (true, overlay data 0 (height * width) (words width argb)) := by
  intro n
  induction n with
  | zero => rintro j rfl; rfl
  | succ n ih =>
    intro j hj
    have hline : (j + 1) * width ≤ height * width := Nat.mul_le_mul_right _ (by omega)
    have hnext := ih (j := j + 1) (by omega)
    rw [Nat.succ_mul] at hline hnext
    have hpixels : pixelLoop m buffer width pxSize j width 0
        (overlay data 0 (j * width + 0) (words width argb)) = _ :=
      pixelLoop_eq (by omega) (hpixel j (by omega)) (Nat.zero_add width)
    rw [Nat.add_zero] at hpixels
    rw [lineLoop, hpixels]
    exact hnext

end Loading

/-- The bytes of the decoded image are those of its lines. -/
theorem Png.bytes_of_bits {png : Png} {m : Bytes} {buffer : ℕ} (hmod : png.bpp % 8 = 0)
    (hbits : ∀ y < png.height, ∀ x < png.width * png.bpp,
      bitsOf m (8 * buffer + (png.width * png.bpp * y + x)) = lineBit png.lines y x)
    {y x k : ℕ} (hy : y < png.height) (hx : x < png.width) (hk : k < png.bpp / 8) :
    m (buffer + ((y * png.width + x) * (png.bpp / 8) + k)) =
      png.lines y (png.bpp / 8 * x + k) := by
  obtain ⟨px, hpx⟩ : ∃ px, png.bpp = 8 * px := ⟨png.bpp / 8, by omega⟩
  have hdiv : png.bpp / 8 = px := by omega
  rw [hdiv] at hk ⊢
  apply byte_of_bits
  intro t ht
  have hrow : px * x + px ≤ px * png.width := by
    rw [← Nat.mul_succ]
    exact Nat.mul_le_mul_left _ hx
  have hwidth : png.width * png.bpp = 8 * (px * png.width) := by
    rw [hpx]
    ring
  have hbit := hbits y hy (8 * (px * x + k) + t) (by omega)
  have haddr : 8 * buffer + (png.width * png.bpp * y + (8 * (px * x + k) + t)) =
      8 * (buffer + ((y * png.width + x) * px + k)) + t := by
    rw [hwidth]
    ring
  have hbyte : (8 * (px * x + k) + t) / 8 = px * x + k := by omega
  have hmod' : (8 * (px * x + k) + t) % 8 = t := by omega
  rw [haddr, lineBit, hbyte, hmod'] at hbit
  exact hbit

/-- **An image is loaded from the file system**: a file that an encoder may have made of it ends up
as the words of its pixels, line by line, and nothing else in the array changes. -/
theorem loadPng_eq {img : FsImage} (himg : img.FilesWellFormed) {fname : List UInt8} {d : Dentry}
    (hname : img.readDentryByName fname = some d) (hinode : d.inodeNum < img.inodeNum)
    (hlen : (img.inodes d.inodeNum).lengthInBytes < pngDataSize) {png : Png}
    (hfile : png.EncodedBy (img.contents d.inodeNum)) (h : png.Supported) (hpacked : png.Packed)
    (hfits : png.Fits) {inflated pngBuf : ℕ}
    (hapart : pngBuf + png.linebytes * png.height ≤ inflated ∨
      inflated + (1 + png.linebytes) * png.height ≤ pngBuf)
    (one : List UInt8) (m : Bytes) (data : ℕ → BitVec 32) :
    loadPng img fname one inflated pngBuf m data =
      .ok (0, overlay data 0 (png.height * png.width) (words png.width png.argb)) := by
  have hsize : pngDataSize = maxPngSize := rfl
  have hcontents : (img.contents d.inodeNum).length = (img.inodes d.inodeNum).lengthInBytes :=
    img.length_contents d.inodeNum
  have hpos : 0 < (img.inodes d.inodeNum).lengthInBytes := by
    obtain ⟨length, crc, chunks, ending, hsplit, _⟩ := hfile
    rw [← hcontents, hsplit, List.length_append, Png.length_header]
    omega
  have hread : img.readData d.inodeNum 0 pngDataSize = some (img.contents d.inodeNum) := by
    rw [FsImage.readData_inside_file himg hinode hpos, List.drop_zero,
      List.take_of_length_le (by omega)]
  obtain ⟨m', hdecode, hbits, _⟩ := h.upngDecode hfits
    (u := { upngNewFromFile (img.contents d.inodeNum) with buffer := some pngBuf }) hfile
    (by show (img.contents d.inodeNum).length ≤ _; omega) rfl rfl rfl hapart one m
  obtain ⟨hmod, hpx⟩ : png.bpp % 8 = 0 ∧ 0 < png.bpp / 8 := by
    have := hpacked.bpp_eq
    omega
  have harea : png.width * (png.height * png.bpp + 7) =
      png.height * png.width * png.bpp + png.width * 7 := by ring
  have hover := hfits.noOverflow
  have hwords : png.height * png.width * (png.bpp / 8) < 2 ^ 32 :=
    (Nat.mul_le_mul_left _ (Nat.div_le_self _ _)).trans_lt (by omega)
  have hcount : png.height * png.width ≤ png.height * png.width * (png.bpp / 8) :=
    Nat.le_mul_of_pos_right _ hpx
  have hpixel : ∀ j < png.height, ∀ i < png.width, pngPixel m' pngBuf (png.bpp / 8)
      ((j * png.width + i) * (png.bpp / 8) % 2 ^ 32) = some (png.argb j i) := by
    intro j hj i hi
    have hrow : (j + 1) * png.width ≤ png.height * png.width := Nat.mul_le_mul_right _ hj
    rw [Nat.succ_mul] at hrow
    have hidx : (j * png.width + i) * (png.bpp / 8) ≤ png.height * png.width * (png.bpp / 8) :=
      Nat.mul_le_mul_right _ (by omega)
    rw [Nat.mod_eq_of_lt (by omega)]
    exact pngPixel_eq hpacked fun k hk => png.bytes_of_bits hmod hbits hj hi hk
  have hloop : lineLoop m' pngBuf png.width (png.bpp / 8) png.height 0
      (overlay data 0 (0 * png.width) (words png.width png.argb)) = _ :=
    lineLoop_eq (by omega) hpixel (Nat.zero_add png.height)
  rw [Nat.zero_mul, overlay_zero] at hloop
  have hpixelsize : (png.bpp + png.bpp % 8) / 8 = png.bpp / 8 := by rw [hmod, Nat.add_zero]
  rw [loadPng, hname]
  dsimp only
  rw [hread]
  dsimp only
  rw [if_neg (by omega), hdecode, ok_bind]
  show (let r := lineLoop m' pngBuf png.width ((png.bpp + png.bpp % 8) / 8) png.height 0 data
    Except.ok (if r.1 then 0 else -1, r.2)) = _
  rw [hpixelsize, hloop]
  rfl

/-- A file system with one file, of one block. -/
def diskWith (fname file : List UInt8) : FsImage where
  dirNum := 1
  inodeNum := 1
  dataBlockNum := 1
  dirEntries _ := ⟨fname, 2, 0⟩
  inodes _ := ⟨file.length, fun _ => 0⟩
  dataBlocks _ k := file.getD k 0

theorem contents_diskWith {fname file : List UInt8} (h : file.length ≤ fileBlockSize) :
    (diskWith fname file).contents 0 = file := by
  apply List.ext_getElem
  · exact FsImage.length_contents _ 0
  · intro i _ hi
    have hmod : i % fileBlockSize = i := Nat.mod_eq_of_lt (by omega)
    have hbyte : ((diskWith fname file).contents 0)[i] = file.getD (i % fileBlockSize) 0 := by
      simp only [FsImage.contents, List.getElem_map, List.getElem_range]
      rfl
    rw [hbyte, hmod, List.getD_eq_getElem?_getD, List.getElem?_eq_getElem hi, Option.getD_some]

/-- The words of a red and a green pixel. -/
theorem loadPng_eq_twoPixels : ∃ data, loadPng (diskWith [97] Png.twoPixels.encode) [97] [] 16 0
    (fun _ => 0) (fun _ => 0) = .ok (0, data) ∧ data 0 = 0xFFFF0000 ∧ data 1 = 0xFF00FF00 := by
  have hlen := Png.length_encode_twoPixels
  have hcontents : (diskWith [97] Png.twoPixels.encode).contents 0 = Png.twoPixels.encode :=
    contents_diskWith (hlen.trans (by decide))
  have hmax : (Png.twoPixels.encode).length ≤ maxPngSize := hlen.trans (by decide)
  have himg : (diskWith [97] Png.twoPixels.encode).FilesWellFormed := by
    refine ⟨fun n _ => hlen.trans (by decide), fun n _ b _ => Nat.zero_lt_one⟩
  have hname : (diskWith [97] Png.twoPixels.encode).readDentryByName [97] = some ⟨[97], 2, 0⟩ := rfl
  have hapart : 0 + Png.twoPixels.linebytes * Png.twoPixels.height ≤ 16 := by decide
  have hload := loadPng_eq himg hname Nat.zero_lt_one (hlen.trans_lt (by decide))
    (by rw [hcontents]; exact Png.encodedBy_encode hmax) Png.twoPixels_supported
    (.inl ⟨rfl, rfl⟩) Png.twoPixels_fits (.inl hapart) [] (fun _ => 0) (fun _ => 0)
  exact ⟨_, hload, by decide, by decide⟩

end AuroraOS
