/-
# The desktop

`gui_objs.c` keeps the desktop as a canvas: a picture in memory, laid out like the video memory.
`render_desktop` of `gui_render.c` copies it to the lines that are drawn next, one page after the
other.  From the file on the disk to the video memory, every pixel arrives.
-/
import AuroraOS.Gui
import AuroraOS.LoadPng
import AuroraOS.VideoMemory

namespace AuroraOS

open Blit Memory Overlay Raster StringInstructions

/-- `VGA_SCREEN_BYTES`. -/
abbrev vgaScreenBytes : ℕ := 1024 * 768 * 2
/-- `GUI_TRANSPARENT_COLOR`. -/
abbrev guiTransparentColor : BitVec 32 := 0xFFE96F89

/-- What `render_png_to_obj` fills in a `gui_object_t`. -/
structure PngObject where
  canvas : Option (BitVec 32)
  x : ℤ
  y : ℤ
  width : ℕ
  height : ℕ
  transparentColor : BitVec 32

/-! ## The code -/

namespace Vga

variable (s : Vga)

/-- `ca_clear`, with the registers at the call of `memset`. -/
def caClear (canvas size : BitVec 32) (r : Regs) : Vga :=
  s.put (memset canvas 0 size { r with mem := s.view }).mem

/-- `ca_draw_pixel`. -/
def caDrawPixel (canvas : BitVec 32) (x y : ℤ) (argb : BitVec 32) : Vga :=
  let a := canvas + pixelOffset x y
  s.put (store16 s.view a (blended argb (load16 s.view a)))

/-- The body of the loops of `render_png_to_obj`: a pixel, and the transparent color so far. -/
def renderPixel (canvas : Option (BitVec 32)) (x y : ℤ) (color transparent : BitVec 32) :
    Vga × BitVec 32 :=
  match canvas with
  | none =>
    if alphaOf color = 0 then ((s.setColorArgb guiTransparentColor).drawPixel x y, transparent)
    else ((s.setColorArgb color).drawPixel x y, transparent)
  | some canvas =>
    if alphaOf color = 0 then (s.caDrawPixel canvas x y guiTransparentColor, guiTransparentColor)
    else (s.caDrawPixel canvas x y color, transparent)

/-- `render_png_to_obj`, for `png_data` of these words. -/
def renderPngToObj (pngData : ℕ → BitVec 32) (width height : ℕ) (canvas : Option (BitVec 32))
    (xOffset yOffset : ℤ) : Vga × PngObject :=
  let r := forLoop (fun j => forLoop (fun i r =>
    r.1.renderPixel canvas (xOffset + i) (yOffset + j) (pngData (j * width + i)) r.2) width 0)
    height 0 (s, 0)
  (r.1, ⟨canvas, xOffset, yOffset, width, height, r.2⟩)

/-- `render_desktop`, with the registers at the calls of `memcpy`. -/
def renderDesktop (canvas : BitVec 32) (currY : ℤ) (r : ℕ → Regs) : Vga :=
  forLoop (fun page s =>
    let s := s.setPage (page + currY.tdiv 32)
    s.put (memcpy videoAddress (canvas + BitVec.ofNat 32 (page * vgaPageSize)) 0x10000
      { r page with mem := s.view }).mem) (vgaScreenBytes / vgaPageSize) 0 s

end Vga

/-- The name of the background: `background_a.png`. -/
def backgroundName : List UInt8 :=
  [98, 97, 99, 107, 103, 114, 111, 117, 110, 100, 95, 97, 46, 112, 110, 103]

/-- `init_desktop_obj`; the buffers are those of `load_png`. -/
def initDesktopObj (img : FsImage) (one : List UInt8) (inflated pngBuf : ℕ) (m : Bytes)
    (pngData : ℕ → BitVec 32) (canvas : BitVec 32) (r : Regs) (s : Vga) :
    Except Stop (Vga × PngObject) :=
  let s := s.caClear canvas (BitVec.ofNat 32 vgaScreenBytes) r
  match loadPng img backgroundName one inflated pngBuf m pngData with
  | .error e => .error e
  | .ok (_, pngData) => .ok (s.renderPngToObj pngData 1024 768 (some canvas) 0 0)

/-! ## Memory outside of the window -/

namespace Vga

variable {s : Vga} {a b canvas : BitVec 32} {w : BitVec 16} {m r : Mem}

theorem view_outside (hb : vgaPageSize ≤ (b - videoAddress).toNat) : s.view b = s.ram b :=
  if_neg (Nat.not_lt.mpr hb)

/-- **What is written outside of the window goes to the other memory.** -/
theorem put_outside {ram : Mem} (hin : ∀ b, (b - videoAddress).toNat < vgaPageSize →
      m b = s.view b ∧ ram b = s.ram b)
    (hout : ∀ b, vgaPageSize ≤ (b - videoAddress).toNat → m b = ram b) :
    s.put m = { s with ram := ram } := by
  have hvram : (s.put m).vram = s.vram := by
    funext b
    show patch s.vram s.window vgaPageSize (fun b => m (videoAddress + (b - s.window))) b = _
    rw [patch]
    split_ifs with hb
    · have hbyte : (videoAddress + (b - s.window) - videoAddress).toNat < vgaPageSize := by
        rwa [add_sub_cancel_left]
      rw [(hin _ hbyte).1, view_window hb, add_sub_cancel]
    · rfl
  have hram : (s.put m).ram = ram := by
    funext b
    show patch m videoAddress vgaPageSize s.ram b = _
    rw [patch]
    split_ifs with hb
    · exact (hin b hb).2.symm
    · exact hout b (Nat.not_lt.mp hb)
  rw [put] at hvram hram ⊢
  dsimp only at hvram hram
  rw [hvram, hram]

/-- **What fills the window goes to the page.** -/
theorem put_page : s.put (patch s.view videoAddress vgaPageSize r) =
    { s with vram := patch s.vram s.window vgaPageSize fun b => r (videoAddress + (b - s.window)) }
    := by
  have hvram : patch s.vram s.window vgaPageSize (fun b =>
      patch s.view videoAddress vgaPageSize r (videoAddress + (b - s.window))) =
      patch s.vram s.window vgaPageSize fun b => r (videoAddress + (b - s.window)) := by
    apply patch_congr
    intro b hb
    apply patch_inside
    rwa [add_sub_cancel_left]
  have hram : patch (patch s.view videoAddress vgaPageSize r) videoAddress vgaPageSize s.ram =
      s.ram := by
    funext b
    by_cases hb : (b - videoAddress).toNat < vgaPageSize
    · exact patch_inside hb
    · rw [Nat.not_lt] at hb
      rw [patch_outside hb, patch_outside hb, view_outside hb]
  rw [put, hvram, hram]

/-- A canvas lies above the window, in front of the end of the memory. -/
structure IsCanvas (canvas : BitVec 32) : Prop where
  above : videoAddress.toNat + vgaPageSize ≤ canvas.toNat
  fits : canvas.toNat + vgaScreenBytes ≤ 2 ^ 32

/-- The bytes of a canvas are outside of the window. -/
theorem IsCanvas.outside (h : IsCanvas canvas) (hb : (b - canvas).toNat < vgaScreenBytes) :
    vgaPageSize ≤ (b - videoAddress).toNat := by
  have habove : 0xA0000 + 0x10000 ≤ canvas.toNat := h.above
  have hfits : canvas.toNat + 1024 * 768 * 2 ≤ 2 ^ 32 := h.fits
  simp only [vgaScreenBytes] at hb
  show 0x10000 ≤ (b - 0xA0000).toNat
  bv_omega

theorem store16_congr (h : m b = r b) : store16 m a w b = store16 r a w b := by
  simp only [store16, Function.update_apply, h]

/-! ## Drawing on a canvas -/

/-- The pixels of a canvas. -/
abbrev OnScreen (x y : ℤ) : Prop := Inside vgaBytesPerLine vgaHeight x y

theorem onScreen_bytes (base : BitVec 32) {x y : ℤ} (h : OnScreen x y) :
    (address base vgaBytesPerLine x y - base).toNat < vgaScreenBytes ∧
      (address base vgaBytesPerLine x y + 1 - base).toNat < vgaScreenBytes := by
  have hoffset := Inside.offset h
  have hdist : (address base vgaBytesPerLine x y - base).toNat = _ :=
    Inside.toNat_sub h (by decide)
  have hbytes : vgaBytesPerLine * vgaHeight = vgaScreenBytes := rfl
  have hsum : address base vgaBytesPerLine x y + 1 - base =
      address base vgaBytesPerLine x y - base + 1 := by
    rw [add_sub_right_comm]
  rw [hsum]
  simp only [vgaBytesPerLine, vgaScreenBytes] at hoffset hdist hbytes ⊢
  constructor
  · omega
  · bv_omega

/-- The pixels of a canvas are in its bytes. -/
theorem picture_congr {base : BitVec 32} {x y : ℤ} (hin : OnScreen x y)
    (h : ∀ b : BitVec 32, (b - base).toNat < vgaScreenBytes → m b = r b) :
    picture m base vgaBytesPerLine x y = picture r base vgaBytesPerLine x y := by
  obtain ⟨hfirst, hsecond⟩ := onScreen_bytes base hin
  exact load16_congr (h _ hfirst) (h _ hsecond)

/-- A canvas shows a picture, and nothing else has changed. -/
structure CanvasShows (canvas : BitVec 32) (s₀ s : Vga) (P : Picture (BitVec 16)) : Prop where
  only : s = { s₀ with ram := s.ram }
  draws : Draws canvas vgaBytesPerLine vgaHeight s₀.ram s.ram P

variable {s₀ : Vga} {P : Picture (BitVec 16)} {x y : ℤ}

/-- **A canvas that is cleared is black.** -/
theorem caClear_shows (h : IsCanvas canvas) (regs : Regs) :
    CanvasShows canvas s (s.caClear canvas (BitVec.ofNat 32 vgaScreenBytes) regs) fun _ _ => 0 := by
  have hsize : (BitVec.ofNat 32 vgaScreenBytes).toNat = vgaScreenBytes := rfl
  have hclear : s.caClear canvas (BitVec.ofNat 32 vgaScreenBytes) regs =
      { s with ram := patch s.ram canvas vgaScreenBytes fun _ => 0 } := by
    rw [caClear, memset_eq, hsize]
    refine put_outside (fun b hb => ?_) fun b hb => ?_
    · have hcanvas : vgaScreenBytes ≤ (b - canvas).toNat := by
        by_contra hlt
        exact absurd (h.outside (Nat.not_le.mp hlt)) (Nat.not_le.mpr hb)
      exact ⟨patch_outside hcanvas, patch_outside hcanvas⟩
    · show (if _ then _ else s.view b) = _
      rw [view_outside hb]
      rfl
  have hbytes : vgaBytesPerLine * vgaHeight = vgaScreenBytes := rfl
  rw [hclear]
  refine ⟨rfl, fun {x y} hin => ?_, fun b hb => ?_⟩
  swap
  · have hb' : vgaScreenBytes ≤ (b - canvas).toNat := by omega
    show patch s.ram canvas vgaScreenBytes (fun _ => 0) b = s.ram b
    exact patch_outside hb'
  have hblack : picture (fun _ => 0) canvas vgaBytesPerLine x y = 0 := by
    show (0 : UInt8).toBitVec ++ (0 : UInt8).toBitVec = (0 : BitVec 16)
    decide
  rw [← hblack]
  refine picture_congr hin fun b hb => ?_
  show patch s.ram canvas vgaScreenBytes (fun _ => 0) b = 0
  rw [patch_inside hb]

/-- **A pixel is drawn on a canvas.** -/
theorem CanvasShows.caDrawPixel (h : CanvasShows canvas s₀ s P) (hcanvas : IsCanvas canvas)
    (hin : OnScreen x y) (argb : BitVec 32) :
    CanvasShows canvas s₀ (s.caDrawPixel canvas x y argb) (plot x y (blended argb) P) := by
  obtain ⟨hfirst, hsecond⟩ := onScreen_bytes canvas hin
  obtain ⟨a, ha⟩ : ∃ a, a = address canvas vgaBytesPerLine x y := ⟨_, rfl⟩
  rw [← ha] at hfirst hsecond
  replace hfirst := hcanvas.outside hfirst
  replace hsecond := hcanvas.outside hsecond
  have hload : load16 s.view a = load16 s.ram a :=
    load16_congr (view_outside hfirst) (view_outside hsecond)
  have hfar : ∀ {b : BitVec 32}, (b - videoAddress).toNat < vgaPageSize → 2 ≤ (b - a).toNat := by
    intro b hb
    simp only [vgaPageSize] at hb hfirst hsecond
    bv_omega
  have hdraw : s.caDrawPixel canvas x y argb =
      { s with ram := store16 s.ram a (blended argb (load16 s.ram a)) } := by
    rw [Vga.caDrawPixel, show canvas + pixelOffset x y = a from ha.symm, hload]
    refine put_outside (fun b hb => ?_) fun b hb => ?_
    · exact ⟨store16_of_le (hfar hb), store16_of_le (hfar hb)⟩
    · exact store16_congr (view_outside hb)
  have hstore := h.draws.store (by decide) hin (blended argb)
  rw [← ha] at hstore
  rw [hdraw]
  refine ⟨?_, hstore⟩
  rw [h.only]

/-- The color that `render_png_to_obj` draws for a word. -/
def objectColor (color : BitVec 32) : BitVec 32 :=
  if alphaOf color = 0 then guiTransparentColor else color

/-- The picture that is left by drawing an image. -/
def rendered (pngData : ℕ → BitVec 32) (width height : ℕ) (xOffset yOffset : ℤ)
    (P : Picture (BitVec 16)) : Picture (BitVec 16) :=
  region xOffset yOffset width height
    (fun i j => blended (objectColor (pngData (j * width + i)))) P

/-- **An image is drawn on a canvas.** -/
theorem CanvasShows.renderPngToObj (h : CanvasShows canvas s₀ s P) (hcanvas : IsCanvas canvas)
    {pngData : ℕ → BitVec 32} {width height : ℕ} {xOffset yOffset : ℤ}
    (hin : ∀ i < width, ∀ j < height, OnScreen (xOffset + i) (yOffset + j)) :
    CanvasShows canvas s₀ (s.renderPngToObj pngData width height (some canvas) xOffset yOffset).1
      (rendered pngData width height xOffset yOffset P) := by
  rw [Vga.renderPngToObj, rendered]
  refine forLoop_rows (R := fun (r : Vga × BitVec 32) Q => CanvasShows canvas s₀ r.1 Q) ?_ h
  intro j hj i hi r Q hr
  have hdraw := hr.caDrawPixel hcanvas (hin i hi j hj) (objectColor (pngData (j * width + i)))
  rw [objectColor] at hdraw ⊢
  rw [renderPixel]
  split_ifs with htransparent
  · rwa [if_pos htransparent] at hdraw
  · rwa [if_neg htransparent] at hdraw

/-- **An image is drawn in the video memory.** -/
theorem Shows.renderPngToObj (h : Shows s₀ s P) {pngData : ℕ → BitVec 32} {width height : ℕ}
    {xOffset yOffset : ℤ} (hin : ∀ i < width, ∀ j < height, OnCard (xOffset + i) (yOffset + j)) :
    Shows s₀ (s.renderPngToObj pngData width height none xOffset yOffset).1
      (rendered pngData width height xOffset yOffset P) := by
  rw [Vga.renderPngToObj, rendered]
  refine forLoop_rows (R := fun (r : Vga × BitVec 32) Q => Shows s₀ r.1 Q) ?_ h
  intro j hj i hi r Q hr
  have hcolor : ∀ color, Shows s₀ (r.1.setColorArgb color) Q := fun color =>
    ⟨hr.synced, hr.ram, hr.draws⟩
  rw [objectColor, renderPixel]
  split_ifs with htransparent
  · exact ((hcolor guiTransparentColor).drawAt (hin i hi j hj) guiTransparentColor).1
  · exact ((hcolor _).drawAt (hin i hi j hj) _).1

/-! ## The desktop -/

/-- The video memory from the first page on, with the first bytes of a canvas. -/
def copiedFrom (s : Vga) (canvas : BitVec 32) (first n : ℕ) : Mem :=
  patch s.vram (BitVec.ofNat 32 (first * vgaPageSize)) n fun b =>
    s.ram (canvas + (b - BitVec.ofNat 32 (first * vgaPageSize)))

/-- **A page is copied** to the window. -/
theorem put_memcpy {src : BitVec 32} (h : NotInside videoAddress src vgaPageSize) (regs : Regs) :
    s.put (memcpy videoAddress src 0x10000 { regs with mem := s.view }).mem =
      { s with vram := patch s.vram s.window vgaPageSize fun b => s.view (src + (b - s.window)) }
    := by
  have hn : (0x10000 : BitVec 32).toNat = vgaPageSize := rfl
  rw [memcpy_eq (by rwa [hn]), copied, hn, put_page]
  simp only [add_sub_cancel_left]

/-- What `render_desktop` has done after some pages. -/
structure Copies (canvas : BitVec 32) (first : ℕ) (s₀ : Vga) (pages : ℕ) (s : Vga) : Prop where
  synced : s.Synced
  ram : s.ram = s₀.ram
  vram : s.vram = copiedFrom s₀ canvas first (pages * vgaPageSize)

/-- **One page more.** -/
theorem Copies.page {first page : ℕ} (h : Copies canvas first s₀ page s) (hcanvas : IsCanvas canvas)
    (hpage : page < 24) (hfirst : first + page < 64) (regs : Regs) :
    Copies canvas first s₀ (page + 1)
      ((s.setPage ((page : ℤ) + first)).put (memcpy videoAddress
        (canvas + BitVec.ofNat 32 (page * vgaPageSize)) 0x10000
        { regs with mem := (s.setPage ((page : ℤ) + first)).view }).mem) := by
  have hset : s.OnPage (s.setPage ((page : ℤ) + first)) (first + page) := by
    have hsum : (page : ℤ) + first = ((first + page : ℕ) : ℤ) := by
      push_cast
      ring
    rw [hsum]
    exact setPage_onPage h.synced hfirst
  obtain ⟨t, ht⟩ : ∃ t, t = s.setPage ((page : ℤ) + first) := ⟨_, rfl⟩
  rw [← ht] at hset ⊢
  have hapart : NotInside videoAddress (canvas + BitVec.ofNat 32 (page * vgaPageSize))
      vgaPageSize := by
    have habove : 0xA0000 + 0x10000 ≤ canvas.toNat := hcanvas.above
    have hfits : canvas.toNat + 1024 * 768 * 2 ≤ 2 ^ 32 := hcanvas.fits
    refine .inr ?_
    show 0x10000 ≤ (0xA0000 - (canvas + BitVec.ofNat 32 (page * 0x10000))).toNat
    bv_omega
  have hstart : BitVec.ofNat 32 (first * vgaPageSize) + BitVec.ofNat 32 (page * vgaPageSize) =
      t.window := by
    rw [hset.window, ← BitVec.ofNat_add, ← Nat.add_mul]
  -- the canvas is read through the window that has just been moved
  have hsource : ∀ b : BitVec 32, (b - t.window).toNat < vgaPageSize →
      t.view (canvas + BitVec.ofNat 32 (page * vgaPageSize) + (b - t.window)) =
        s₀.ram (canvas + (b - BitVec.ofNat 32 (first * vgaPageSize))) := by
    intro b hb
    have haddr : BitVec.ofNat 32 (page * vgaPageSize) + (b - t.window) =
        b - BitVec.ofNat 32 (first * vgaPageSize) := by
      rw [← hstart, sub_add_eq_sub_sub, add_sub_cancel]
    have hinside : (canvas + (BitVec.ofNat 32 (page * vgaPageSize) + (b - t.window)) -
        canvas).toNat < vgaScreenBytes := by
      rw [add_sub_cancel_left, BitVec.toNat_add, BitVec.toNat_ofNat]
      simp only [vgaPageSize, vgaScreenBytes] at hb ⊢
      omega
    rw [add_assoc, view_outside (hcanvas.outside hinside), hset.ram, h.ram, haddr]
  -- the pages before and this one are one interval
  have hvram : patch t.vram t.window vgaPageSize (fun b =>
      t.view (canvas + BitVec.ofNat 32 (page * vgaPageSize) + (b - t.window))) =
      copiedFrom s₀ canvas first ((page + 1) * vgaPageSize) := by
    have hsize : page * vgaPageSize + vgaPageSize ≤ 2 ^ 32 := by
      simp only [vgaPageSize]
      omega
    rw [copiedFrom, Nat.succ_mul, ← patch_append hsize, hstart, hset.vram, h.vram, copiedFrom]
    exact patch_congr hsource
  rw [put_memcpy hapart, hvram]
  exact ⟨hset.synced, hset.ram.trans h.ram, rfl⟩

/-- **`render_desktop` copies a canvas**, whichever half of the memory is drawn. -/
theorem renderDesktop_copies {first : ℕ} {currY : ℤ} (hs : s.Synced) (hcanvas : IsCanvas canvas)
    (hcurr : currY = 32 * first) (hfirst : first + 24 ≤ 64) (regs : ℕ → Regs) :
    Copies canvas first s 24 (s.renderDesktop canvas currY regs) := by
  have hpages : vgaScreenBytes / vgaPageSize = 24 := rfl
  have hdiv : currY.tdiv 32 = first := by
    rw [hcurr, Int.mul_tdiv_cancel_left _ (by decide)]
  have hnone : copiedFrom s canvas first (0 * vgaPageSize) = s.vram := by
    rw [copiedFrom, Nat.zero_mul, patch_zero]
  rw [renderDesktop, hpages, hdiv]
  refine forLoop_induction ?_ (Nat.zero_add 24) ⟨hs, rfl, hnone.symm⟩
  intro page hpage t ht
  exact ht.page hcanvas hpage (by omega) (regs page)

section Copied

variable {first : ℕ}

theorem address_page (first : ℕ) (x y : ℤ) : address 0 vgaBytesPerLine x (y + 32 * first) =
    BitVec.ofNat 32 (first * vgaPageSize) + pixelOffset x y := by
  have hoffset : (y + 32 * first) * vgaBytesPerLine + x * 2 =
      (first * vgaPageSize : ℕ) + (y * vgaBytesPerLine + x * 2) := by
    simp only [vgaBytesPerLine, vgaPageSize]
    push_cast
    ring
  rw [address, zero_add, hoffset, BitVec.ofInt_add, BitVec.ofInt_natCast, pixelOffset]

/-- **The pixels of the canvas are in the lines that are drawn.** -/
theorem Copies.picture (h : Copies canvas first s₀ 24 s) (hin : OnScreen x y) :
    picture s.vram 0 vgaBytesPerLine x (y + 32 * first) =
      picture s₀.ram canvas vgaBytesPerLine x y := by
  obtain ⟨hfirst, hsecond⟩ := onScreen_bytes 0 hin
  obtain ⟨e, he⟩ : ∃ e, e = pixelOffset x y := ⟨_, rfl⟩
  rw [sub_zero, address_zero, ← he] at hfirst hsecond
  have hbyte : ∀ d : BitVec 32, d.toNat < vgaScreenBytes →
      s.vram (BitVec.ofNat 32 (first * vgaPageSize) + d) = s₀.ram (canvas + d) := by
    intro d hd
    have hsize : (BitVec.ofNat 32 (first * vgaPageSize) + d -
        BitVec.ofNat 32 (first * vgaPageSize)).toNat < 24 * vgaPageSize := by
      rwa [add_sub_cancel_left]
    rw [h.vram, copiedFrom, patch_inside hsize, add_sub_cancel_left]
  rw [Raster.picture, Raster.picture, address_page, address, ← pixelOffset, ← he, load16, load16,
    hbyte e hfirst, add_assoc, add_assoc, hbyte (e + 1) hsecond]

/-- The rest of the video memory is not changed. -/
theorem Copies.frame (h : Copies canvas first s₀ 24 s)
    (hb : vgaScreenBytes ≤ (b - BitVec.ofNat 32 (first * vgaPageSize)).toNat) :
    s.vram b = s₀.vram b := by
  rw [h.vram]
  exact patch_outside hb

end Copied

end Vga

/-- **The desktop is the image on the disk.**  When the file of the background is an image of the
size of the screen, every pixel of it ends up in the canvas, and `render_desktop` brings it to the
lines that are drawn next, from any later state with the canvas as it was.  Nothing else is changed
by the one, and no other lines by the other. -/
theorem desktop_shown {img : FsImage} (himg : img.FilesWellFormed) {d : Dentry}
    (hname : img.readDentryByName backgroundName = some d) (hinode : d.inodeNum < img.inodeNum)
    (hlen : (img.inodes d.inodeNum).lengthInBytes < pngDataSize) {png : Png}
    (hfile : png.EncodedBy (img.contents d.inodeNum)) (h : png.Supported) (hpacked : png.Packed)
    (hfits : png.Fits) (hwidth : png.width = 1024) (hheight : png.height = 768)
    {inflated pngBuf : ℕ} (hapart : pngBuf + png.linebytes * png.height ≤ inflated ∨
      inflated + (1 + png.linebytes) * png.height ≤ pngBuf)
    (one : List UInt8) (m : Bytes) (data : ℕ → BitVec 32) {canvas : BitVec 32}
    (hcanvas : Vga.IsCanvas canvas) (r : Regs) (s : Vga) :
    ∃ t object, initDesktopObj img one inflated pngBuf m data canvas r s = .ok (t, object) ∧
      object.canvas = some canvas ∧ t = { s with ram := t.ram } ∧
      (∀ b : BitVec 32, vgaScreenBytes ≤ (b - canvas).toNat → t.ram b = s.ram b) ∧
      ∀ u : Vga, u.Synced → (∀ b, (b - canvas).toNat < vgaScreenBytes → u.ram b = t.ram b) →
        ∀ first : ℕ, first + 24 ≤ 64 → ∀ regs : ℕ → Regs,
          (∀ x y : ℕ, x < 1024 → y < 768 →
            picture (u.renderDesktop canvas (32 * first) regs).vram 0 vgaBytesPerLine x
              (y + 32 * first) = blended (Vga.objectColor (png.argb y x)) 0) ∧
          ∀ b : BitVec 32, vgaScreenBytes ≤ (b - BitVec.ofNat 32 (first * vgaPageSize)).toNat →
            (u.renderDesktop canvas (32 * first) regs).vram b = u.vram b := by
  have hload := loadPng_eq himg hname hinode hlen hfile h hpacked hfits hapart one m data
  obtain ⟨pngData, hdata⟩ : ∃ pngData, pngData =
    overlay data 0 (png.height * png.width) (words png.width png.argb) := ⟨_, rfl⟩
  obtain ⟨t, ht⟩ : ∃ t, t = (s.caClear canvas (BitVec.ofNat 32 vgaScreenBytes) r).renderPngToObj
    pngData 1024 768 (some canvas) 0 0 := ⟨_, rfl⟩
  have hscreen : ∀ {x y : ℕ}, x < 1024 → y < 768 → Vga.OnScreen x y := by
    intro x y hx hy
    refine ⟨⟨by omega, ?_⟩, by omega, ?_⟩
    · show (x : ℤ) * 2 + 2 ≤ 2048
      omega
    · show (y : ℤ) < 768
      omega
  have hdraw : Vga.CanvasShows canvas s t.1 (Vga.rendered pngData 1024 768 0 0 fun _ _ => 0) := by
    rw [ht]
    refine (Vga.caClear_shows hcanvas r).renderPngToObj hcanvas fun i hi j hj => ?_
    rw [zero_add, zero_add]
    exact hscreen hi hj
  refine ⟨t.1, t.2, ?_, ?_, hdraw.only, fun b hb => hdraw.draws.frame b ?_, ?_⟩
  · rw [initDesktopObj, hload, ← hdata]
    dsimp only
    rw [← ht]
  · rw [ht]
    rfl
  · have hbytes : vgaBytesPerLine * vgaHeight = vgaScreenBytes := rfl
    omega
  -- a later state: only the bytes of the canvas are those of `t`
  intro u hu hkeep first hfirst regs
  have hcopies := Vga.renderDesktop_copies hu hcanvas rfl hfirst regs
  refine ⟨fun x y hx hy => ?_, fun b hb => hcopies.frame hb⟩
  have hin := hscreen hx hy
  have hpixel : pngData (y * 1024 + x) = png.argb y x := by
    have hindex : y * 1024 + x < 768 * 1024 := by omega
    rw [hdata, hwidth, hheight, ← Nat.zero_add (y * 1024 + x), overlay_inside hindex, words_at hx]
  have hcanvasPixel : picture u.ram canvas vgaBytesPerLine x y =
      picture t.1.ram canvas vgaBytesPerLine x y := Vga.picture_congr hin hkeep
  rw [hcopies.picture hin, hcanvasPixel, hdraw.draws.shows hin, Vga.rendered, region,
    if_pos (by omega)]
  simp only [sub_zero, Int.toNat_natCast, hpixel]

/-- A file system with one file. -/
def fileDisk (fname file : List UInt8) : FsImage where
  dirNum := 1
  inodeNum := 1
  dataBlockNum := inodeBlocks
  dirEntries _ := ⟨fname, 2, 0⟩
  inodes _ := ⟨file.length, fun b => b⟩
  dataBlocks b k := file.getD (b * fileBlockSize + k) 0

theorem contents_fileDisk (fname file : List UInt8) : (fileDisk fname file).contents 0 = file := by
  apply List.ext_getElem
  · exact FsImage.length_contents _ 0
  · intro i _ hi
    have hbyte : ((fileDisk fname file).contents 0)[i] =
        file.getD (i / fileBlockSize * fileBlockSize + i % fileBlockSize) 0 := by
      simp only [FsImage.contents, List.getElem_map, List.getElem_range]
      rfl
    rw [hbyte, Nat.div_add_mod', List.getD_eq_getElem?_getD, List.getElem?_eq_getElem hi,
      Option.getD_some]

theorem filesWellFormed_fileDisk {fname file : List UInt8}
    (h : file.length ≤ inodeBlocks * fileBlockSize) : (fileDisk fname file).FilesWellFormed where
  length _ _ := h
  block _ _ b hb := by
    have hlt : b * fileBlockSize < inodeBlocks * fileBlockSize := hb.trans_le h
    exact Nat.lt_of_mul_lt_mul_right hlt

/-- A grey image of the size of the screen. -/
def greyScreen : Png where
  width := 1024
  height := 768
  colorType := upngRgb
  colorDepth := 8
  lines _ _ := 200
  types _ := .none

/-- The grey image is drawn in the lower half, from registers with the direction flag set. -/
theorem desktop_shown_grey : ∃ t object,
    initDesktopObj (fileDisk backgroundName greyScreen.encode) [] 2359296 0 (fun _ => 0)
      (fun _ => 0) 0x400000 ⟨0, 0, true, fun _ => 0⟩ ⟨fun _ => 0, 0, fun _ => 0, -1, 0⟩ =
        .ok (t, object) ∧
      picture (Vga.renderDesktop ⟨fun _ => 0, 0, t.ram, -1, 0⟩ 0x400000 (32 * (24 : ℕ))
        fun _ => ⟨0, 0, true, fun _ => 0⟩).vram 0 vgaBytesPerLine (3 : ℕ)
          ((5 : ℕ) + 32 * (24 : ℕ)) = 0x6318 := by
  have hlines : greyScreen.scanlines.length = 2360064 := Png.length_scanlines
  have hdeflate := length_deflate_le greyScreen.scanlines
  have hlen : (greyScreen.encode).length ≤ 2655200 := by
    rw [Png.length_encode]
    omega
  have hmax : (greyScreen.encode).length ≤ maxPngSize := hlen.trans (by decide)
  have hcontents := contents_fileDisk backgroundName greyScreen.encode
  have hfile : greyScreen.EncodedBy ((fileDisk backgroundName greyScreen.encode).contents 0) := by
    rw [hcontents]
    exact Png.encodedBy_encode hmax
  have hs : Vga.Synced ⟨fun _ => 0, 0, fun _ => 0, -1, 0⟩ := Vga.synced_unset rfl
  have hname : (fileDisk backgroundName greyScreen.encode).readDentryByName backgroundName =
    some ⟨backgroundName, 2, 0⟩ := rfl
  have hapart : 0 + greyScreen.linebytes * greyScreen.height ≤ 2359296 := by decide
  have hcanvas : Vga.IsCanvas 0x400000 := ⟨by decide, by decide⟩
  obtain ⟨t, object, hinit, _, _, _, hshown⟩ := desktop_shown
    (filesWellFormed_fileDisk (hlen.trans (by decide))) hname Nat.zero_lt_one
    (hlen.trans_lt (by decide)) hfile (by constructor <;> decide) (.inl ⟨rfl, rfl⟩)
    (by constructor <;> decide) rfl rfl (.inl hapart) [] (fun _ => 0) (fun _ => 0) hcanvas
    ⟨0, 0, true, fun _ => 0⟩ ⟨fun _ => 0, 0, fun _ => 0, -1, 0⟩
  refine ⟨t, object, hinit, ?_⟩
  have hpixel := (hshown ⟨fun _ => 0, 0, t.ram, -1, 0⟩ hs (fun _ _ => rfl) 24 (by decide)
    fun _ => ⟨0, 0, true, fun _ => 0⟩).1 3 5 (by decide) (by decide)
  rw [hpixel]
  decide

end AuroraOS
