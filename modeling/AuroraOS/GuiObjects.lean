/-
# The objects of the user interface

What `init_font_obj` and `render_png_to_obj` of `gui_objs.c` leave in the video memory below the
lines that are shown, and the glyphs that `gui_get_obj_font` finds there.  An opaque color hides
what was there before, so the color that stands for transparent pixels is found again by the chip.
-/
import AuroraOS.Desktop
import AuroraOS.Painting

namespace AuroraOS

open Blit Memory Raster StringInstructions

/-! ## Opaque colors -/

theorem mix_full {x : ℕ} (hx : x < 256) (y : ℕ) : mix 255 x y = 255 * y / 256 := by
  have hnone : (256 - 255) * x / 256 = 0 := Nat.div_eq_of_lt (by omega)
  rw [mix, hnone, Nat.zero_or]

/-- **An opaque color hides the old one.** -/
theorem blended_full {argb : BitVec 32} (h : alphaOf argb = 255) (old old' : BitVec 16) :
    blended argb old = blended argb old' := by
  have hblend : rgbBlend (colorRevert old) argb 255 = rgbBlend (colorRevert old') argb 255 := by
    apply BitVec.eq_of_toNat_eq
    have halpha : (255 : BitVec 32).toNat < 256 := by decide
    have hmix : ∀ (c : Channel) (color : BitVec 32),
        mix (255 : BitVec 32).toNat (c.value color) (c.value argb) = 255 * c.value argb / 256 :=
      fun c color => mix_full (c.value_lt color) _
    rw [toNat_rgbBlend _ _ halpha, toNat_rgbBlend _ _ halpha]
    simp only [hmix]
  rw [blended, blended, h, hblend]

/-- **Transparent pixels are drawn in the color that the chip leaves out.** -/
theorem blended_transparent (old : BitVec 16) :
    blended guiTransparentColor old = colorConvert guiTransparentColor := by
  rw [blended_full (by decide) old 0]
  decide

namespace Vga

/-! ## Images -/

section Images

variable (pngData : ℕ → BitVec 32)

/-- The transparent color behind the first words. -/
def transparentBefore (n : ℕ) : BitVec 32 :=
  if ∃ k < n, alphaOf (pngData k) = 0 then guiTransparentColor else 0

theorem transparentBefore_succ (n : ℕ) : transparentBefore pngData (n + 1) =
    if alphaOf (pngData n) = 0 then guiTransparentColor else transparentBefore pngData n := by
  by_cases hlast : alphaOf (pngData n) = 0
  · rw [if_pos hlast, transparentBefore, if_pos ⟨n, Nat.lt_succ_self n, hlast⟩]
  · have hiff : (∃ k < n + 1, alphaOf (pngData k) = 0) ↔ ∃ k < n, alphaOf (pngData k) = 0 := by
      rw [Nat.exists_lt_succ_right]
      exact or_iff_left hlast
    simp only [transparentBefore, hiff, if_neg hlast]

variable {pngData} {s : Vga} {width height : ℕ} {xOffset yOffset : ℤ}

theorem renderPngToObj_onCard :
    (s.renderPngToObj pngData width height none xOffset yOffset).2 =
      ⟨none, xOffset, yOffset, width, height, 0⟩ := by
  rw [renderPngToObj]
  refine congrArg (PngObject.mk none xOffset yOffset width height) ?_
  refine forLoop_induction (R := fun _ (r : Vga × BitVec 32) => r.2 = 0) ?_ (Nat.zero_add height)
    rfl
  intro j _ r hr
  refine forLoop_induction (R := fun _ (r : Vga × BitVec 32) => r.2 = 0) ?_ (Nat.zero_add width) hr
  intro i _ r hr
  rw [renderPixel]
  split_ifs
  · exact hr
  · exact hr

theorem renderPngToObj_onCanvas (canvas : BitVec 32) :
    (s.renderPngToObj pngData width height (some canvas) xOffset yOffset).2 =
      ⟨some canvas, xOffset, yOffset, width, height, transparentBefore pngData (height * width)⟩
    := by
  rw [renderPngToObj]
  refine congrArg (PngObject.mk (some canvas) xOffset yOffset width height) ?_
  refine forLoop_induction
    (R := fun j (r : Vga × BitVec 32) => r.2 = transparentBefore pngData (j * width)) ?_
    (Nat.zero_add height) ?_
  · intro j _ r hr
    show _ = transparentBefore pngData ((j + 1) * width)
    rw [Nat.succ_mul]
    refine forLoop_induction
      (R := fun i (r : Vga × BitVec 32) => r.2 = transparentBefore pngData (j * width + i)) ?_
      (Nat.zero_add width) hr
    intro i _ r hr
    -- the color is set once and for all by the first transparent pixel
    rw [← Nat.add_assoc, transparentBefore_succ, renderPixel]
    split_ifs
    · rfl
    · exact hr
  · rw [Nat.zero_mul, transparentBefore, if_neg (by simp)]

end Images

/-! ## Glyphs -/

/-- The column of `init_font_obj` for a character. -/
def glyphX (ch : ℕ) : ℤ := (ch &&& 0x7F : ℕ) * fontWidth
/-- Its row. -/
def glyphY (ch : ℕ) : ℤ := vgaHeight * 2 + (ch / 128 : ℕ) * fontHeight

/-- The color of a pixel of a glyph. -/
def glyphColor (fontData : ℕ → ℕ → ℕ) (fg bg : BitVec 32) (ch i j : ℕ) : BitVec 32 :=
  if fontData ch j &&& (1 <<< (7 - i)) ≠ 0 then fg else bg

/-- `init_font_obj`, with `font_data`. -/
def initFontObj (fontData : ℕ → ℕ → ℕ) (fg bg : BitVec 32) (s : Vga) : Vga :=
  forLoop (fun ch => forLoop (fun i => forLoop (fun j s =>
    (s.setColorArgb (glyphColor fontData fg bg ch i j)).drawPixel (glyphX ch + i) (glyphY ch + j))
    16 0) 8 0) 256 0 s

/-- The picture with the first glyphs. -/
def glyphs (f : ℕ → ℕ → ℕ → BitVec 16 → BitVec 16) :
    ℕ → Picture (BitVec 16) → Picture (BitVec 16)
  | 0, P => P
  | n + 1, P => region (glyphX n) (glyphY n) 8 16 (f n) (glyphs f n P)

section Glyphs

variable {f : ℕ → ℕ → ℕ → BitVec 16 → BitVec 16} {P : Picture (BitVec 16)} {s₀ s : Vga}

theorem glyph_place (ch : ℕ) :
    glyphX ch = (ch % 128 : ℕ) * 8 ∧ glyphY ch = 1536 + (ch / 128 : ℕ) * 16 := by
  have hmask : ch &&& 0x7F = ch % 128 := Nat.and_two_pow_sub_one_eq_mod ch 7
  exact ⟨by rw [glyphX, hmask], rfl⟩

theorem glyph_onCard {ch i j : ℕ} (hch : ch < 256) (hi : i < 8) (hj : j < 16) :
    OnCard (glyphX ch + i) (glyphY ch + j) := by
  obtain ⟨hx, hy⟩ := glyph_place ch
  refine ⟨⟨by omega, ?_⟩, by omega, by omega⟩
  show _ ≤ (2048 : ℤ)
  omega

/-- Glyphs do not overlap. -/
theorem glyphs_of_le {n ch i j : ℕ} (hch : n ≤ ch) (hi : i < 8) (hj : j < 16) :
    glyphs f n P (glyphX ch + i) (glyphY ch + j) = P (glyphX ch + i) (glyphY ch + j) := by
  induction n with
  | zero => rfl
  | succ n ih =>
    obtain ⟨hx, hy⟩ := glyph_place ch
    obtain ⟨hx', hy'⟩ := glyph_place n
    rw [glyphs, region, if_neg (by omega), ih (by omega)]

/-- **Every glyph is where it has been drawn.** -/
theorem glyphs_at {n ch i j : ℕ} (hch : ch < n) (hi : i < 8) (hj : j < 16) :
    glyphs f n P (glyphX ch + i) (glyphY ch + j) =
      f ch i j (P (glyphX ch + i) (glyphY ch + j)) := by
  induction n with
  | zero => omega
  | succ n ih =>
    rw [glyphs, region]
    by_cases heq : ch = n
    -- the glyph that is drawn last is drawn on none of the others
    · subst heq
      have hcol : (glyphX ch + i - glyphX ch).toNat = i := by omega
      have hrow : (glyphY ch + j - glyphY ch).toNat = j := by omega
      rw [if_pos (by omega), hcol, hrow, glyphs_of_le le_rfl hi hj]
    · obtain ⟨hx, hy⟩ := glyph_place ch
      obtain ⟨hx', hy'⟩ := glyph_place n
      rw [if_neg (by omega), ih (by omega)]

/-- Glyphs are drawn in 32 lines only. -/
theorem glyphs_elsewhere {n : ℕ} (hn : n ≤ 256) {x y : ℤ} (hy : y < 1536 ∨ 1568 ≤ y) :
    glyphs f n P x y = P x y := by
  induction n with
  | zero => rfl
  | succ n ih =>
    obtain ⟨_, hy'⟩ := glyph_place n
    rw [glyphs, region, if_neg (by omega), ih (by omega)]

/-- **The glyphs are drawn in the video memory.** -/
theorem Shows.initFontObj (h : Shows s₀ s P) (fontData : ℕ → ℕ → ℕ) (fg bg : BitVec 32) :
    Shows s₀ (s.initFontObj fontData fg bg)
      (glyphs (fun ch i j => blended (glyphColor fontData fg bg ch i j)) 256 P) := by
  refine forLoop_induction (R := fun n s => Shows s₀ s
    (glyphs (fun ch i j => blended (glyphColor fontData fg bg ch i j)) n P)) ?_
    (Nat.zero_add 256) h
  -- one glyph: the outer loop is over its columns
  intro ch hch t ht
  refine forLoop_columns (R := fun s Q => Shows s₀ s Q) ?_ ht
  intro i hi j hj u Q hu
  have hin : OnCard (glyphX ch + i) (glyphY ch + j) := glyph_onCard hch hi hj
  have hcolor : Shows s₀ (u.setColorArgb (glyphColor fontData fg bg ch i j)) Q :=
    ⟨hu.synced, hu.ram, hu.draws⟩
  exact (hcolor.drawAt hin _).1

end Glyphs

end Vga

/-! ## The objects -/

/-- **An image becomes an object.**  In the video memory and on a canvas the rectangle of the image
is drawn and nothing else.  Where the image is transparent, the color is the one that stands for
that; the object on a canvas names this color, the one in the video memory never does. -/
theorem pngObject_drawn (s : Vga) (pngData : ℕ → BitVec 32) (width height : ℕ)
    (xOffset yOffset : ℤ) :
    (s.Synced → (∀ i < width, ∀ j < height, Vga.OnCard (xOffset + (i : ℕ)) (yOffset + (j : ℕ))) →
      ∃ t, s.renderPngToObj pngData width height none xOffset yOffset =
          (t, ⟨none, xOffset, yOffset, width, height, 0⟩) ∧
        t.ram = s.ram ∧ Draws 0 vgaBytesPerLine 2048 s.vram t.vram
          (Vga.rendered pngData width height xOffset yOffset (picture s.vram 0 vgaBytesPerLine))) ∧
    (∀ canvas, Vga.IsCanvas canvas →
      (∀ i < width, ∀ j < height, Vga.OnScreen (xOffset + (i : ℕ)) (yOffset + (j : ℕ))) →
      ∃ t, s.renderPngToObj pngData width height (some canvas) xOffset yOffset =
          (t, ⟨some canvas, xOffset, yOffset, width, height,
            if ∃ k < height * width, alphaOf (pngData k) = 0 then guiTransparentColor else 0⟩) ∧
        t = { s with ram := t.ram } ∧ Draws canvas vgaBytesPerLine vgaHeight s.ram t.ram
          (Vga.rendered pngData width height xOffset yOffset
            (picture s.ram canvas vgaBytesPerLine))) ∧
    ∀ color, alphaOf color = 0 → ∀ old,
      blended (Vga.objectColor color) old = colorConvert guiTransparentColor := by
  refine ⟨fun hs hin => ?_, fun canvas hcanvas hin => ?_, fun color hcolor old => ?_⟩
  · have hdraw : Vga.Shows s (s.renderPngToObj pngData width height none xOffset yOffset).1 _ :=
      (Vga.Shows.start hs).renderPngToObj hin
    exact ⟨_, Prod.ext rfl Vga.renderPngToObj_onCard, hdraw.ram, hdraw.draws⟩
  · have hstart : Vga.CanvasShows canvas s s (picture s.ram canvas vgaBytesPerLine) :=
      ⟨rfl, Draws.start s.ram⟩
    have hdraw : Vga.CanvasShows canvas s
        (s.renderPngToObj pngData width height (some canvas) xOffset yOffset).1 _ :=
      hstart.renderPngToObj hcanvas hin
    exact ⟨_, Prod.ext rfl (Vga.renderPngToObj_onCanvas canvas), hdraw.only, hdraw.draws⟩
  · rw [Vga.objectColor, if_pos hcolor, blended_transparent]

/-- `GUI_FONT_FORECOLOR_ARGB`. -/
abbrev guiFontForecolorArgb : BitVec 32 := 0xFFFFFFFF
/-- `GUI_FONT_BACKCOLOR_ARGB`. -/
abbrev guiFontBackcolorArgb : BitVec 32 := 0xFF000000

theorem blended_forecolor (old : BitVec 16) : blended guiFontForecolorArgb old = 0x7FFF := by
  rw [blended_full (by decide) old 0]
  decide

theorem blended_backcolor (old : BitVec 16) :
    blended guiFontBackcolorArgb old = colorConvert guiFontBackcolorArgb := by
  rw [blended_full (by decide) old 0]
  decide

theorem guiGetObjFont_place {ch : UInt8} (h : ch.toNat < 128) :
    (guiGetObjFont ch).x = Vga.glyphX ch.toNat ∧ (guiGetObjFont ch).y = Vga.glyphY ch.toNat := by
  obtain ⟨hx, hy⟩ := Vga.glyph_place ch.toNat
  have hne : ch ≠ 0x80 := by
    rintro rfl
    exact absurd h (by decide)
  rw [guiGetObjFont_y, if_neg hne, hx, hy]
  refine ⟨?_, by omega⟩
  show (ch.toNat : ℤ) % 128 * 8 = _
  rw [Int.natCast_emod]
  rfl

/-- A pixel of a glyph, whatever has been there before. -/
theorem glyphs_pixel {P : Picture (BitVec 16)} (fontData : ℕ → ℕ → ℕ) {n ch i j : ℕ} (hch : ch < n)
    (hi : i < 8) (hj : j < 16) :
    Vga.glyphs (fun ch i j => blended (Vga.glyphColor fontData guiFontForecolorArgb
      guiFontBackcolorArgb ch i j)) n P (Vga.glyphX ch + i) (Vga.glyphY ch + j) =
        if fontData ch j &&& (1 <<< (7 - i)) ≠ 0 then 0x7FFF
        else colorConvert guiFontBackcolorArgb := by
  rw [Vga.glyphs_at hch hi hj, Vga.glyphColor]
  split_ifs
  · exact blended_forecolor _
  · exact blended_backcolor _

end AuroraOS
