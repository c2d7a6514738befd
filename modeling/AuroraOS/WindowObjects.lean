/-
# The pictures of the windows

`init_window_obj` of `gui_objs.c` draws the images of the windows below the glyphs, and the images
of the start on the screen.  No image is drawn over another object, so in the end every object is
the image that has been loaded for it, and the glyphs are still there.
-/
import AuroraOS.GuiObjects

namespace AuroraOS

open Blit Memory Raster

/-! ## The code -/

/-- `draw_png_to_screen`. -/
def Vga.drawPngToScreen (s : Vga) (pngData : ℕ → BitVec 32) (width height : ℕ)
    (xOffset yOffset : ℤ) : Vga :=
  forLoop (fun j => forLoop (fun i s =>
    (s.setColorArgb (pngData (j * width + i))).drawPixel (xOffset + i) (yOffset + j)) width 0)
    height 0 s

/-- A call of `load_png`, with `draw_png_to_screen` or `render_png_to_obj` behind it. -/
structure ImageCall where
  onScreen : Bool
  x : ℤ
  y : ℤ
  width : ℕ
  height : ℕ

namespace ImageCall

/-- The call, for what `load_png` has left in `_png_data`. -/
def draw (c : ImageCall) (pngData : ℕ → BitVec 32) (s : Vga) : Vga :=
  if c.onScreen then s.drawPngToScreen pngData c.width c.height c.x c.y
  else (s.renderPngToObj pngData c.width c.height none c.x c.y).1

/-- Calls one after the other, from the `k`-th load on. -/
def drawAll (pngData : ℕ → ℕ → BitVec 32) : ℕ → List ImageCall → Vga → Vga
  | _, [], s => s
  | k, c :: cs, s => drawAll pngData (k + 1) cs (c.draw (pngData k) s)

end ImageCall

/-- The calls of `init_window_obj`. -/
def windowCalls : List ImageCall :=
  [⟨true, 417, 301, 190, 164⟩,
    ⟨false, 0, winObjY, 652, 21⟩,
    ⟨true, 532, 246, 104, 59⟩,
    ⟨false, 0, winObjY + 25, 652, 4⟩,
    ⟨false, 1024 - 16, winObjY, 6, 480⟩,
    ⟨false, 1024 - 8, winObjY, 6, 480⟩,
    ⟨true, 308, 393, 104, 59⟩,
    ⟨false, 16 * 41, winObjY, 11, 12⟩,
    ⟨false, 16 * 41 + 16, winObjY, 12, 12⟩,
    ⟨false, 16 * 41 + 16 + 16, winObjY, 11, 12⟩,
    ⟨true, 584, 468, 104, 59⟩,
    ⟨false, 16 * 41, winObjY, 11, 12⟩,
    ⟨false, 16 * 41 + 16, winObjY + 16, 12, 12⟩,
    ⟨false, 16 * 41 + 16 + 16, winObjY + 16, 11, 12⟩,
    ⟨false, 16 * 41, winObjY + 16, 12, 12⟩,
    ⟨false, 16 * 41 + 16 + 16 + 16, winObjY, 22, 20⟩,
    ⟨false, 16 * 41 + 16 + 16 + 16 + 32, winObjY, 22, 20⟩]

/-- `init_window_obj`, with what every call of `load_png` leaves. -/
def initWindowObj (pngData : ℕ → ℕ → BitVec 32) (s : Vga) : Vga :=
  ImageCall.drawAll pngData 0 windowCalls s

/-- `gui_obj_terminal`. -/
def guiObjTerminal (pressed : ℤ) : GuiObject where
  x := if pressed = 0 then 16 * 41 + 16 + 16 + 16 else 16 * 41 + 16 + 16 + 16 + 32
  y := winObjY
  width := 22
  height := 20

/-- The objects of the windows, with the last call that draws each of them. -/
def windowObjects : List (GuiObject × ℕ) :=
  [(guiObjWinUp, 1), (guiObjWinDown, 3), (guiObjWinLeft, 4), (guiObjWinRight, 5),
    (guiObjRed 0, 11), (guiObjRed 1, 11), (guiObjYellow 0, 8), (guiObjYellow 1, 12),
    (guiObjGreen 0, 9), (guiObjGreen 1, 13), (guiObjGrey, 14), (guiObjTerminal 0, 15),
    (guiObjTerminal 1, 16)]

/-! ## Drawing one image after the other -/

namespace ImageCall

variable {c : ImageCall} {P : Picture (BitVec 16)} {s₀ s : Vga} {pngData : ℕ → ℕ → BitVec 32}

/-- The picture with an image. -/
def paint (c : ImageCall) (pngData : ℕ → BitVec 32) (P : Picture (BitVec 16)) :
    Picture (BitVec 16) :=
  region c.x c.y c.width c.height (fun i j =>
    blended (if c.onScreen then pngData (j * c.width + i)
      else Vga.objectColor (pngData (j * c.width + i)))) P

/-- The picture with all images. -/
def paintAll (pngData : ℕ → ℕ → BitVec 32) :
    ℕ → List ImageCall → Picture (BitVec 16) → Picture (BitVec 16)
  | _, [], P => P
  | k, c :: cs, P => paintAll pngData (k + 1) cs (c.paint (pngData k) P)

/-- The image is drawn in the video memory. -/
def OnCard (c : ImageCall) : Prop :=
  (0 ≤ c.x ∧ c.x + c.width ≤ 1024) ∧ 0 ≤ c.y ∧ c.y + c.height ≤ 2048

/-- Two images have no pixel in common. -/
def Apart (c d : ImageCall) : Prop :=
  (c.x + c.width ≤ d.x ∨ d.x + d.width ≤ c.x) ∨ c.y + c.height ≤ d.y ∨ d.y + d.height ≤ c.y

instance : DecidablePred OnCard := fun _ => inferInstanceAs (Decidable (_ ∧ _))

instance (c d : ImageCall) : Decidable (c.Apart d) := inferInstanceAs (Decidable (_ ∨ _))

theorem OnCard.inside (h : c.OnCard) {i j : ℕ} (hi : i < c.width) (hj : j < c.height) :
    Vga.OnCard (c.x + i) (c.y + j) := by
  obtain ⟨⟨hx, hwidth⟩, hy, hheight⟩ := h
  refine ⟨⟨by omega, ?_⟩, by omega, by omega⟩
  show _ ≤ (2048 : ℤ)
  omega

/-- **An image is drawn.** -/
theorem shows_draw (h : Vga.Shows s₀ s P) (hc : c.OnCard) (data : ℕ → BitVec 32) :
    Vga.Shows s₀ (c.draw data s) (c.paint data P) := by
  have hin : ∀ i < c.width, ∀ j < c.height, Vga.OnCard (c.x + (i : ℕ)) (c.y + (j : ℕ)) :=
    fun i hi j hj => hc.inside hi hj
  rw [draw, paint]
  split_ifs
  · refine forLoop_rows (R := fun s Q => Vga.Shows s₀ s Q) ?_ h
    intro j hj i hi t Q ht
    have hcolor : Vga.Shows s₀ (t.setColorArgb (data (j * c.width + i))) Q :=
      ⟨ht.synced, ht.ram, ht.draws⟩
    exact (hcolor.drawAt (hin i hi j hj) _).1
  · exact h.renderPngToObj hin

theorem shows_drawAll {cs : List ImageCall} : ∀ {k : ℕ} {s : Vga} {P : Picture (BitVec 16)},
    Vga.Shows s₀ s P → (∀ c ∈ cs, c.OnCard) →
      Vga.Shows s₀ (drawAll pngData k cs s) (paintAll pngData k cs P) := by
  induction cs with
  | nil => intro k s P h _; exact h
  | cons c cs ih =>
    intro k s P h hcs
    exact ih (shows_draw h (hcs c List.mem_cons_self) (pngData k)) fun d hd =>
      hcs d (List.mem_cons_of_mem c hd)

/-- What is drawn elsewhere leaves a pixel alone. -/
theorem paintAll_elsewhere {x y : ℤ} {cs : List ImageCall} : ∀ {k : ℕ} {P : Picture (BitVec 16)},
    (∀ c ∈ cs, ¬((c.x ≤ x ∧ x < c.x + c.width) ∧ c.y ≤ y ∧ y < c.y + c.height)) →
      paintAll pngData k cs P x y = P x y := by
  induction cs with
  | nil => intro k P _; rfl
  | cons c cs ih =>
    intro k P h
    rw [paintAll, ih fun d hd => h d (List.mem_cons_of_mem c hd), paint, region,
      if_neg (h c List.mem_cons_self)]

/-- **The image that is drawn last is seen.** -/
theorem paintAll_at {cs : List ImageCall} : ∀ {n k : ℕ} {P : Picture (BitVec 16)},
    cs[n]? = some c → c.onScreen = false → (∀ d ∈ cs.drop (n + 1), c.Apart d) →
      (∀ p, alphaOf (pngData (k + n) p) = 0 ∨ alphaOf (pngData (k + n) p) = 255) →
        ∀ {i j : ℕ}, i < c.width → j < c.height →
          paintAll pngData k cs P (c.x + i) (c.y + j) =
            blended (Vga.objectColor (pngData (k + n) (j * c.width + i))) 0 := by
  induction cs with
  | nil => intro n k P hget; exact absurd hget (by simp)
  | cons d cs ih =>
    intro n k P hget hobject hapart halpha i j hi hj
    cases n with
    | zero =>
      obtain rfl : d = c := by simpa using hget
      have hcol : (d.x + i - d.x).toNat = i := by omega
      have hrow : (d.y + j - d.y).toNat = j := by omega
      have hfull : alphaOf (Vga.objectColor (pngData k (j * d.width + i))) = 255 := by
        rw [Vga.objectColor]
        rcases halpha (j * d.width + i) with hzero | hfull
        · rw [Nat.add_zero] at hzero
          rw [if_pos hzero]
          decide
        · rw [Nat.add_zero] at hfull
          rw [if_neg (by rw [hfull]; decide), hfull]
      rw [paintAll, paintAll_elsewhere fun e he => ?_, paint, region, if_pos (by omega), hcol,
        hrow, hobject, if_neg Bool.false_ne_true, blended_full hfull _ 0, Nat.add_zero]
      have hap := hapart e he
      rw [Apart] at hap
      omega
    | succ n =>
      have hk : k + (n + 1) = k + 1 + n := by omega
      rw [hk] at halpha ⊢
      rw [paintAll]
      exact ih (by simpa using hget) hobject (by simpa using hapart) halpha hi hj

end ImageCall

/-! ## The objects -/

theorem windowCalls_onCard : ∀ c ∈ windowCalls, c.OnCard := by
  decide

/-- Images are drawn below the glyphs, or on the screen. -/
theorem windowCalls_apart_glyphs : ∀ c ∈ windowCalls, c.y + c.height ≤ 1536 ∨ 1568 ≤ c.y := by
  decide

/-- Every object has the place of its call, and what is drawn later is drawn elsewhere. -/
theorem windowObjects_places : ∀ o ∈ windowObjects, o.2 < windowCalls.length ∧
    ∀ c ∈ windowCalls[o.2]?, c.onScreen = false ∧
      (o.1.x = c.x ∧ o.1.y = c.y ∧ o.1.width = c.width ∧ o.1.height = c.height) ∧
      ∀ d ∈ windowCalls.drop (o.2 + 1), c.Apart d := by
  decide

/-- **Every object is its image**, and every glyph is still there, when `gui_obj_load` has drawn
all of them, for images without half-transparent pixels; the other memory is not changed. -/
theorem objects_loaded {s : Vga} (hs : s.Synced) (fontData : ℕ → ℕ → ℕ)
    {pngData : ℕ → ℕ → BitVec 32}
    (halpha : ∀ k p, alphaOf (pngData k p) = 0 ∨ alphaOf (pngData k p) = 255) :
    let t := initWindowObj pngData
      (s.initFontObj fontData guiFontForecolorArgb guiFontBackcolorArgb)
    (∀ o ∈ windowObjects, ∀ i j : ℕ, (i : ℤ) < o.1.width → (j : ℤ) < o.1.height →
      picture t.vram 0 vgaBytesPerLine (o.1.x + i) (o.1.y + j) =
        blended (Vga.objectColor (pngData o.2 (j * o.1.width.toNat + i))) 0) ∧
    (∀ ch : UInt8, ch.toNat < 128 → ∀ i < 8, ∀ j < 16,
      picture t.vram 0 vgaBytesPerLine ((guiGetObjFont ch).x + (i : ℕ))
        ((guiGetObjFont ch).y + (j : ℕ)) =
          if fontData ch.toNat j &&& (1 <<< (7 - i)) ≠ 0 then 0x7FFF
          else colorConvert guiFontBackcolorArgb) ∧
    t.ram = s.ram := by
  intro t
  have hfont := (Vga.Shows.start hs).initFontObj fontData guiFontForecolorArgb guiFontBackcolorArgb
  have hdraw : Vga.Shows s t _ := ImageCall.shows_drawAll hfont windowCalls_onCard
  refine ⟨fun o ho i j hi hj => ?_, fun ch hch i hi j hj => ?_, hdraw.ram⟩
  · obtain ⟨hlt, hcall⟩ := windowObjects_places o ho
    obtain ⟨c, hc⟩ : ∃ c, windowCalls[o.2]? = some c := ⟨_, List.getElem?_eq_getElem hlt⟩
    obtain ⟨hobject, ⟨hx, hy, hwidth, hheight⟩, hapart⟩ := hcall c hc
    rw [hwidth] at hi
    rw [hheight] at hj
    have hin := (windowCalls_onCard c (List.mem_of_getElem? hc)).inside
      (Int.ofNat_lt.mp hi) (Int.ofNat_lt.mp hj)
    rw [hx, hy, hwidth, Int.toNat_natCast, hdraw.draws.shows hin, ImageCall.paintAll_at hc hobject
      hapart (halpha _) (Int.ofNat_lt.mp hi) (Int.ofNat_lt.mp hj), Nat.zero_add]
  · obtain ⟨hx, hy⟩ := guiGetObjFont_place hch
    obtain ⟨hx', hy'⟩ := Vga.glyph_place ch.toNat
    rw [hx, hy, hdraw.draws.shows (Vga.glyph_onCard (by omega) hi hj),
      ImageCall.paintAll_elsewhere fun c hc => ?_, glyphs_pixel fontData (by omega) hi hj]
    · -- no image reaches into the lines of the glyphs
      have := windowCalls_apart_glyphs c hc
      omega

/-- Grey images and an empty font: a pixel of the button that is drawn twice. -/
theorem objects_loaded_grey : picture (initWindowObj (fun _ _ => 0xFFC8C8C8) (Vga.initFontObj
    (fun _ _ => 0) guiFontForecolorArgb guiFontBackcolorArgb
      ⟨fun _ => 0, 0, fun _ => 0, -1, 0⟩)).vram 0 vgaBytesPerLine ((guiObjRed 1).x + (3 : ℕ))
        ((guiObjRed 1).y + (5 : ℕ)) = 0x6318 := by
  have hs : Vga.Synced ⟨fun _ => 0, 0, fun _ => 0, -1, 0⟩ := Vga.synced_unset rfl
  have halpha : ∀ _ _ : ℕ, alphaOf 0xFFC8C8C8 = 0 ∨ alphaOf 0xFFC8C8C8 = 255 := fun _ _ =>
    .inr (by decide)
  rw [(objects_loaded hs (fun _ _ => 0) halpha).1 (guiObjRed 1, 11) (by simp [windowObjects]) 3 5
    (by decide) (by decide)]
  decide

end AuroraOS
