/-
# The video memory

The drawing functions of `vga_draw.c` reach the video memory through a window of 64 KB that
`vga_set_page` of `vga.c` moves over it.  Whatever page is set, they draw the pixels of one flat
picture of 2048 lines.

The offset register of the chip counts steps of 16 KB, as the source says.
-/
import AuroraOS.Blend
import AuroraOS.MemoryOps
import AuroraOS.Raster

namespace AuroraOS

open Blit Memory Raster StringInstructions

/-! ## Colors -/

/-- `alpha`. -/
def alphaOf (argb : BitVec 32) : BitVec 32 := (argb >>> 24) &&& 0xFF

/-- `color_convert`. -/
def colorConvert (rgb : BitVec 32) : BitVec 16 :=
  (((rgb >>> 3) &&& 0x1F) ||| ((rgb >>> 6) &&& 0x3E0) ||| ((rgb >>> 9) &&& 0x7C00)).setWidth 16

/-- `color_revert`. -/
def colorRevert (c : BitVec 16) : BitVec 32 :=
  (c.setWidth 32 &&& 0x1F) <<< 3 ||| (c.setWidth 32 &&& 0x3E0) <<< 6 |||
    (c.setWidth 32 &&& 0x7C00) <<< 9

/-- The color that a pixel gets when `argb` is drawn on it. -/
def blended (argb : BitVec 32) (old : BitVec 16) : BitVec 16 :=
  colorConvert (rgbBlend (colorRevert old) argb (alphaOf argb))

/-! ## The window -/

/-- The video memory, the offset register of the chip, the other memory, `curr_page`, and
`curr_color`. -/
structure Vga where
  vram : Mem
  gr9 : ℕ
  ram : Mem
  currPage : ℤ
  currColor : BitVec 32

/-- `VIDEO`. -/
abbrev videoAddress : BitVec 32 := 0xA0000
/-- `VGA_PAGE_SIZE`. -/
abbrev vgaPageSize : ℕ := 0x10000
/-- `VGA_BYTES_PER_LINE`, also `vga_info.xbytes`. -/
abbrev vgaBytesPerLine : ℤ := 2048

namespace Vga

variable (s : Vga)

/-- Where the window stands in the video memory. -/
def window : BitVec 32 := BitVec.ofNat 32 (s.gr9 * 0x4000)

/-- The memory as the processor sees it. -/
def view : Mem := fun a =>
  if (a - videoAddress).toNat < vgaPageSize then s.vram (s.window + (a - videoAddress)) else s.ram a

/-- The state after the processor has made its memory this one. -/
def put (m : Mem) : Vga := { s with
  vram := patch s.vram s.window vgaPageSize fun b => m (videoAddress + (b - s.window))
  ram := patch m videoAddress vgaPageSize s.ram }

/-- `cirrus_setpage_64k`: the high byte of the word that is sent. -/
def setpage64k (page : ℤ) : Vga := { s with gr9 := ((page * 1024 + 9) % 65536 / 256).toNat }

/-- `vga_set_page`. -/
def setPage (page : ℤ) : Vga :=
  if page = s.currPage then s else setpage64k { s with currPage := page } page

/-- The address of a pixel, as `unsigned long`. -/
def pixelOffset (x y : ℤ) : BitVec 32 := BitVec.ofInt 32 (y * vgaBytesPerLine + x * 2)

/-- Draw `argb` on the pixel at an offset: the common end of `vga_draw_pixel` and `vga_draw_img`. -/
def drawAt (offset argb : BitVec 32) : Vga :=
  let s := s.setPage (offset >>> 16).toNat
  let a := videoAddress + (offset &&& 0xFFFF)
  s.put (store16 s.view a (blended argb (load16 s.view a)))

/-- `vga_set_color_argb`. -/
def setColorArgb (color : BitVec 32) : Vga := { s with currColor := color }

/-- `vga_draw_pixel`. -/
def drawPixel (x y : ℤ) : Vga := s.drawAt (pixelOffset x y) s.currColor

/-- `vga_get_pixel`: the color, and the state. -/
def getPixel (x y : ℤ) : BitVec 32 × Vga :=
  let offset := pixelOffset x y
  let s := s.setPage (offset >>> 16).toNat
  (colorRevert (load16 s.view (videoAddress + (offset &&& 0xFFFF))), s)

/-- `vga_draw_img`, for an image whose words are `imgData`. -/
def drawImg (imgData : ℕ → BitVec 32) (width height : ℕ) (startX startY : ℤ) : Vga :=
  forLoop (fun y => forLoop (fun x s =>
    s.drawAt (pixelOffset (startX + x) (startY + y)) (imgData (y * width + x))) width 0) height 0 s

/-! ## Pages -/

variable {s}

/-- `curr_page` is the page that is set, if it is one. -/
def Synced (s : Vga) : Prop := ∀ p : ℕ, s.currPage = p → s.gr9 = 4 * p % 256

/-- At the start no page is set. -/
theorem synced_unset (h : s.currPage = -1) : s.Synced := fun p hp => by omega

/-- What a change of the page leaves as it is. -/
structure OnPage (s s' : Vga) (p : ℕ) : Prop where
  synced : s'.Synced
  window : s'.window = BitVec.ofNat 32 (p * 0x10000)
  vram : s'.vram = s.vram
  ram : s'.ram = s.ram
  currColor : s'.currColor = s.currColor

/-- **The window stands on the page that is asked for**, also when it was set before. -/
theorem setPage_onPage (h : s.Synced) {p : ℕ} (hp : p < 64) : s.OnPage (s.setPage p) p := by
  have hvalue : 4 * p % 256 * 0x4000 = p * 0x10000 := by omega
  rw [setPage]
  split_ifs with hsame
  -- the page is set already: the register has not been touched since
  · refine ⟨h, ?_, rfl, rfl, rfl⟩
    rw [window, h p hsame.symm, hvalue]
  -- the low byte of the word is the number of the register, the high byte its value
  · have hgr9 : (((p : ℤ) * 1024 + 9) % 65536 / 256).toNat = 4 * p % 256 := by omega
    refine ⟨fun q hq => ?_, ?_, rfl, rfl, rfl⟩
    · obtain rfl : p = q := Int.ofNat_inj.mp hq
      exact hgr9
    · rw [window, setpage64k]
      dsimp only
      rw [hgr9, hvalue]

/-- A byte in the window. -/
theorem view_window {d : BitVec 32} (hd : d.toNat < vgaPageSize) :
    s.view (videoAddress + d) = s.vram (s.window + d) := by
  rw [view, add_sub_cancel_left, if_pos hd]

/-- **A word that is stored in the window is stored in the video memory.** -/
theorem put_store16 {d : BitVec 32} (hd : d.toNat + 1 < vgaPageSize) (w : BitVec 16) :
    s.put (store16 s.view (videoAddress + d) w) =
      { s with vram := store16 s.vram (s.window + d) w } := by
  have hvram : (s.put (store16 s.view (videoAddress + d) w)).vram =
      store16 s.vram (s.window + d) w := by
    funext b
    rw [put]
    dsimp only
    rw [patch]
    split_ifs with hb
    -- distances from the two ends of the window are the same
    · obtain ⟨e, he⟩ : ∃ e, e = b - s.window := ⟨_, rfl⟩
      obtain rfl : b = s.window + e := by rw [he, add_sub_cancel]
      rw [← he] at hb
      rw [← he]
      simp only [store16, Function.update_apply, add_assoc, add_right_inj, view_window hb]
    · refine (store16_of_le ?_).symm
      simp only [vgaPageSize] at hd hb
      bv_omega
  have hram : (s.put (store16 s.view (videoAddress + d) w)).ram = s.ram := by
    funext b
    show patch (store16 s.view (videoAddress + d) w) videoAddress vgaPageSize s.ram b = _
    rw [patch]
    split_ifs with hb
    · rfl
    · rw [store16_of_le (by simp only [vgaPageSize] at hd hb; bv_omega), view, if_neg hb]
  rw [put] at hvram hram ⊢
  simp only at hvram hram
  rw [hvram, hram]

theorem toNat_page (offset : BitVec 32) : (offset >>> 16).toNat = offset.toNat / 65536 := by
  rw [BitVec.toNat_ushiftRight, Nat.shiftRight_eq_div_pow]

/-- The page and the offset in it make up the offset in the video memory. -/
theorem page_add_offset (offset : BitVec 32) :
    BitVec.ofNat 32 ((offset >>> 16).toNat * 0x10000) + (offset &&& 0xFFFF) = offset := by
  have hlow : (offset &&& 0xFFFF).toNat = offset.toNat % 65536 := by
    rw [BitVec.toNat_and]
    exact Nat.and_two_pow_sub_one_eq_mod offset.toNat 16
  apply BitVec.eq_of_toNat_eq
  have hlt := offset.isLt
  rw [BitVec.toNat_add, BitVec.toNat_ofNat, hlow, toNat_page]
  omega

/-- An even offset leaves room for two bytes in its page. -/
theorem offset_room {offset : BitVec 32} (heven : offset.toNat % 2 = 0) :
    (offset &&& 0xFFFF).toNat + 1 < vgaPageSize := by
  have hlow : (offset &&& 0xFFFF).toNat = offset.toNat % 65536 := by
    rw [BitVec.toNat_and]
    exact Nat.and_two_pow_sub_one_eq_mod offset.toNat 16
  rw [hlow, vgaPageSize]
  omega

section Offset

variable {offset : BitVec 32} (h : s.Synced) (hlt : offset.toNat < 2 ^ 22)
  (heven : offset.toNat % 2 = 0)

include h hlt heven

/-- A pixel is read where it is in the flat video memory. -/
theorem load_page : load16 (s.setPage (offset >>> 16).toNat).view
    (videoAddress + (offset &&& 0xFFFF)) = load16 s.vram offset := by
  have hpage := setPage_onPage h (by rw [toNat_page]; omega : (offset >>> 16).toNat < 64)
  have hsize := offset_room heven
  have hnext : ((offset &&& 0xFFFF) + 1).toNat < vgaPageSize := by
    rw [vgaPageSize] at hsize ⊢
    bv_omega
  rw [load16, load16, view_window (by omega), add_assoc, view_window hnext, ← add_assoc,
    hpage.window, page_add_offset, hpage.vram]

/-- A pixel is drawn where it is in the flat video memory. -/
theorem drawAt_eq (argb : BitVec 32) : ∃ s', s.OnPage s' (offset >>> 16).toNat ∧
    s.drawAt offset argb =
      { s' with vram := store16 s.vram offset (blended argb (load16 s.vram offset)) } := by
  have hpage := setPage_onPage h (by rw [toNat_page]; omega : (offset >>> 16).toNat < 64)
  refine ⟨_, hpage, ?_⟩
  rw [drawAt, put_store16 (offset_room heven), load_page h hlt heven, hpage.window,
    page_add_offset, hpage.vram]

end Offset

/-! ## Drawing -/

/-- The pixels of the video memory: 1024 in a line, 2048 lines. -/
abbrev OnCard (x y : ℤ) : Prop := Inside vgaBytesPerLine 2048 x y

/-- The video memory shows a picture, and the other memory has not changed. -/
structure Shows (s₀ s : Vga) (P : Picture (BitVec 16)) : Prop where
  synced : s.Synced
  ram : s.ram = s₀.ram
  draws : Draws 0 vgaBytesPerLine 2048 s₀.vram s.vram P

variable {s₀ : Vga} {P : Picture (BitVec 16)} {x y : ℤ}

theorem Shows.start (h : s.Synced) : Shows s s (picture s.vram 0 vgaBytesPerLine) :=
  ⟨h, rfl, Draws.start s.vram⟩

theorem address_zero (x y : ℤ) : address 0 vgaBytesPerLine x y = pixelOffset x y := zero_add _

theorem pixelOffset_room (h : OnCard x y) :
    (pixelOffset x y).toNat < 2 ^ 22 ∧ (pixelOffset x y).toNat % 2 = 0 := by
  have hdist : (address 0 vgaBytesPerLine x y - 0).toNat = _ := Inside.toNat_sub h (by decide)
  have hoffset := Inside.offset h
  rw [sub_zero, address_zero] at hdist
  simp only [vgaBytesPerLine] at hdist hoffset
  omega

/-- A change of the page changes no pixel. -/
theorem Shows.setPage (h : Shows s₀ s P) {p : ℕ} (hp : p < 64) : Shows s₀ (s.setPage p) P := by
  have hpage := setPage_onPage h.synced hp
  refine ⟨hpage.synced, hpage.ram.trans h.ram, ?_⟩
  rw [hpage.vram]
  exact h.draws

/-- **A pixel is drawn**, and no other one, whatever page is set. -/
theorem Shows.drawAt (h : Shows s₀ s P) (hin : OnCard x y) (argb : BitVec 32) :
    Shows s₀ (s.drawAt (pixelOffset x y) argb) (plot x y (blended argb) P) ∧
      (s.drawAt (pixelOffset x y) argb).currColor = s.currColor := by
  obtain ⟨hlt, heven⟩ := pixelOffset_room hin
  obtain ⟨s', hpage, hdraw⟩ := drawAt_eq h.synced hlt heven argb
  have hstore := h.draws.store (by decide) hin (blended argb)
  rw [address_zero] at hstore
  rw [hdraw]
  exact ⟨⟨hpage.synced, hpage.ram.trans h.ram, hstore⟩, hpage.currColor⟩

/-- **A pixel is read.** -/
theorem Shows.getPixel (h : Shows s₀ s P) (hin : OnCard x y) :
    (s.getPixel x y).1 = colorRevert (P x y) ∧ Shows s₀ (s.getPixel x y).2 P ∧
      (s.getPixel x y).2.currColor = s.currColor := by
  obtain ⟨hlt, heven⟩ := pixelOffset_room hin
  have hp : (pixelOffset x y >>> 16).toNat < 64 := by
    rw [toNat_page]
    omega
  have hpage := setPage_onPage h.synced hp
  refine ⟨?_, h.setPage hp, hpage.currColor⟩
  rw [Vga.getPixel]
  dsimp only
  rw [load_page h.synced hlt heven, ← h.draws.shows hin, picture, address_zero]

/-- **An image is drawn**: the rectangle that it covers, and nothing else. -/
theorem Shows.drawImg (h : Shows s₀ s P) {imgData : ℕ → BitVec 32} {width height : ℕ}
    {startX startY : ℤ} (hin : ∀ i < width, ∀ j < height, OnCard (startX + i) (startY + j)) :
    Shows s₀ (s.drawImg imgData width height startX startY)
      (region startX startY width height (fun i j => blended (imgData (j * width + i))) P) ∧
      (s.drawImg imgData width height startX startY).currColor = s.currColor := by
  refine forLoop_rows (R := fun t Q => Shows s₀ t Q ∧ t.currColor = s.currColor) ?_ ⟨h, rfl⟩
  rintro j hj i hi t Q ⟨ht, hcolor⟩
  obtain ⟨hdraw, hsame⟩ := ht.drawAt (hin i hi j hj) (imgData (j * width + i))
  exact ⟨hdraw, hsame.trans hcolor⟩

end Vga

/-! ## Runs of calls -/

/-- The calls of the drawing functions. -/
inductive DrawCall
  | setColorArgb (color : BitVec 32)
  | drawPixel (x y : ℤ)
  | getPixel (x y : ℤ)
  | drawImg (imgData : ℕ → BitVec 32) (width height : ℕ) (startX startY : ℤ)
  | setPage (page : ℕ)

/-- A picture that is drawn to, and the color. -/
structure Painter where
  picture : Picture (BitVec 16)
  color : BitVec 32

namespace DrawCall

/-- What a call asks for is in the video memory. -/
def OnCard : DrawCall → Prop
  | setColorArgb _ => True
  | drawPixel x y => Vga.OnCard x y
  | getPixel x y => Vga.OnCard x y
  | drawImg _ width height startX startY =>
    ∀ i < width, ∀ j < height, Vga.OnCard (startX + (i : ℕ)) (startY + (j : ℕ))
  | setPage page => page < 64

/-- A call of the code: the colors it returns, and the state. -/
def call : DrawCall → Vga → List (BitVec 32) × Vga
  | setColorArgb color, s => ([], s.setColorArgb color)
  | drawPixel x y, s => ([], s.drawPixel x y)
  | getPixel x y, s => ([(s.getPixel x y).1], (s.getPixel x y).2)
  | drawImg imgData width height startX startY, s =>
    ([], s.drawImg imgData width height startX startY)
  | setPage page, s => ([], s.setPage page)

/-- What a call is for, on a picture without pages. -/
def paint : DrawCall → Painter → List (BitVec 32) × Painter
  | setColorArgb color, p => ([], ⟨p.picture, color⟩)
  | drawPixel x y, p => ([], ⟨plot x y (blended p.color) p.picture, p.color⟩)
  | getPixel x y, p => ([colorRevert (p.picture x y)], p)
  | drawImg imgData width height startX startY, p =>
    ([], ⟨region startX startY width height (fun i j => blended (imgData (j * width + i)))
      p.picture, p.color⟩)
  | setPage _, p => ([], p)

/-- Calls one after the other. -/
def run {S : Type} (f : DrawCall → S → List (BitVec 32) × S) :
    List DrawCall → S → List (BitVec 32) × S
  | [], s => ([], s)
  | c :: cs, s => ((f c s).1 ++ (run f cs (f c s).2).1, (run f cs (f c s).2).2)

variable {s₀ s : Vga} {p : Painter}

/-- A call of the code does what the call is for. -/
theorem call_shows (h : Vga.Shows s₀ s p.picture) (hcolor : s.currColor = p.color) {c : DrawCall}
    (hin : c.OnCard) : (c.call s).1 = (c.paint p).1 ∧
      Vga.Shows s₀ (c.call s).2 (c.paint p).2.picture ∧
      (c.call s).2.currColor = (c.paint p).2.color := by
  cases c with
  | setColorArgb color => exact ⟨rfl, ⟨h.synced, h.ram, h.draws⟩, rfl⟩
  | drawPixel x y =>
    obtain ⟨hdraw, hsame⟩ := h.drawAt hin s.currColor
    refine ⟨rfl, ?_, hsame.trans hcolor⟩
    show Vga.Shows s₀ _ (plot x y (blended p.color) p.picture)
    rw [← hcolor]
    exact hdraw
  | getPixel x y =>
    obtain ⟨hread, hshows, hsame⟩ := h.getPixel hin
    exact ⟨congrArg (fun c => [c]) hread, hshows, hsame.trans hcolor⟩
  | drawImg imgData width height startX startY =>
    obtain ⟨hdraw, hsame⟩ := @Vga.Shows.drawImg _ _ _ h imgData width height startX startY hin
    exact ⟨rfl, hdraw, hsame.trans hcolor⟩
  | setPage page =>
    have hpage := Vga.setPage_onPage h.synced hin
    exact ⟨rfl, h.setPage hin, hpage.currColor.trans hcolor⟩

/-- Calls do what they are for, one after the other. -/
theorem run_shows {calls : List DrawCall} : ∀ {s : Vga} {p : Painter},
    Vga.Shows s₀ s p.picture → s.currColor = p.color → (∀ c ∈ calls, c.OnCard) →
      (run call calls s).1 = (run paint calls p).1 ∧
        Vga.Shows s₀ (run call calls s).2 (run paint calls p).2.picture := by
  induction calls with
  | nil => intro s p h _ _; exact ⟨rfl, h⟩
  | cons c calls ih =>
    intro s p h hcolor hin
    obtain ⟨hread, hshows, hcolor'⟩ := call_shows h hcolor (hin c List.mem_cons_self)
    obtain ⟨hrest, hend⟩ := ih hshows hcolor' fun d hd => hin d (List.mem_cons_of_mem c hd)
    exact ⟨by rw [run, run, hread, hrest], hend⟩

end DrawCall

/-- **The pages cannot be seen.**  Any run of drawing calls, with changes of the page in between,
returns the colors and leaves the pixels that it would on one flat picture; it changes nothing
behind the picture, and nothing outside of the video memory. -/
theorem drawCalls_flat {s : Vga} (hs : s.Synced) {calls : List DrawCall}
    (hin : ∀ c ∈ calls, c.OnCard) :
    (DrawCall.run DrawCall.call calls s).1 = (DrawCall.run DrawCall.paint calls
      ⟨picture s.vram 0 vgaBytesPerLine, s.currColor⟩).1 ∧
    (∀ x y, Vga.OnCard x y →
      picture (DrawCall.run DrawCall.call calls s).2.vram 0 vgaBytesPerLine x y =
        (DrawCall.run DrawCall.paint calls
          ⟨picture s.vram 0 vgaBytesPerLine, s.currColor⟩).2.picture x y) ∧
    (∀ b : BitVec 32, 2 ^ 22 ≤ b.toNat →
      (DrawCall.run DrawCall.call calls s).2.vram b = s.vram b) ∧
    (DrawCall.run DrawCall.call calls s).2.ram = s.ram := by
  obtain ⟨hread, hshows⟩ := DrawCall.run_shows (p := ⟨_, s.currColor⟩) (Vga.Shows.start hs) rfl hin
  refine ⟨hread, fun x y h => hshows.draws.shows h, fun b hb => hshows.draws.frame b ?_, hshows.ram⟩
  rw [sub_zero]
  have hsize : vgaBytesPerLine * 2048 = 2 ^ 22 := rfl
  omega

/-- A pixel on another page than the one that is set last. -/
theorem drawCalls_flat_white : (DrawCall.run DrawCall.call
    [.setColorArgb 0xFFFFFFFF, .drawPixel 1000 1500, .setPage 3, .getPixel 1000 1500]
    ⟨fun _ => 0, 0, fun _ => 0, -1, 0⟩).1 = [0xF8F8F8] := by
  have hs : Vga.Synced ⟨fun _ => 0, 0, fun _ => 0, -1, 0⟩ := Vga.synced_unset rfl
  have hpixel : Vga.OnCard 1000 1500 := by
    constructor
    · exact ⟨by decide, by decide⟩
    · exact ⟨by decide, by decide⟩
  rw [(drawCalls_flat hs fun c hc => ?_).1]
  · decide
  · simp only [List.mem_cons, List.not_mem_nil, or_false] at hc
    rcases hc with rfl | rfl | rfl | rfl
    · trivial
    · exact hpixel
    · exact (by decide : 3 < 64)
    · exact hpixel

end AuroraOS
