/-
# Rendering and the painter's algorithm

Every copy that is made for a window stays inside of its frame, so at each pixel the topmost
window whose frame has the pixel decides.  Its border is drawn completely by both algorithms,
and so is its text, but for the characters that `render_windows` misses.
-/
import AuroraOS.RenderGrid

namespace AuroraOS

open Blit

variable {currY : ℤ} {stack : WindowStack} {text : ℕ → ℤ → UInt8} {c : Copy} {i : ℕ}
  {win : GuiWindow} {x y : ℤ}

/-! ## Characters -/

/-- The copy for the character in column `q` and row `r` of a window. -/
def charCopy (currY : ℤ) (win : GuiWindow) (buf : ℤ → UInt8) (q r : ℤ) : Copy :=
  printChar currY (buf (r * 80 + q)) (win.termX + q * 8) (win.termY + r * 16)

/-- The character that covers a pixel. -/
theorem covers_charCopy {buf : ℤ → UInt8} {q r : ℤ} :
    (charCopy currY win buf q r).Covers x (y + currY) ↔
      q = (x - win.termX) / 8 ∧ r = (y - win.termY) / 16 := by
  simp only [charCopy, printChar, drawObject, guiGetObjFont, fontWidth, fontHeight, Copy.Covers]
  omega

/-- The copies of `draw_terminal_content`, with its first character on the grid of the
characters of a window. -/
theorem mem_drawTerminalContent {buf : ℤ → UInt8} {sx sy cols rows : ℤ} :
    c ∈ drawTerminalContent currY buf sx sy cols rows (win.termX + sx * fontWidth)
        (win.termY + sy * fontHeight) ↔
      ∃ q r, (sx ≤ q ∧ q < sx + cols) ∧ (sy ≤ r ∧ r < sy + rows) ∧
        c = charCopy currY win buf q r := by
  have hcopy : ∀ a b : ℕ, printChar currY (buf ((b + sy) * 80 + (a + sx)))
      (a * fontWidth + (win.termX + sx * fontWidth))
      (b * fontHeight + (win.termY + sy * fontHeight)) =
        charCopy currY win buf (sx + a) (sy + b) := by
    intro a b
    rw [charCopy]
    congr 1
    · congr 1
      ring
    · simp only [fontWidth]
      ring
    · simp only [fontHeight]
      ring
  simp only [drawTerminalContent, List.mem_flatMap, List.mem_map, List.mem_range, hcopy]
  constructor
  · rintro ⟨b, hb, a, ha, rfl⟩
    rw [Int.lt_toNat] at hb ha
    exact ⟨sx + a, sy + b, by omega, by omega, rfl⟩
  · rintro ⟨q, r, hq, hr, rfl⟩
    refine ⟨(r - sy).toNat, by omega, (q - sx).toNat, by omega, ?_⟩
    rw [Int.toNat_of_nonneg (by omega), Int.toNat_of_nonneg (by omega), add_sub_cancel,
      add_sub_cancel]

/-- The row of a glyph: that of byte `0x80` is in front of all the others. -/
theorem guiGetObjFont_y (ch : UInt8) :
    (guiGetObjFont ch).y = if ch = 0x80 then 1520 else 1536 := by
  by_cases h : ch = 0x80
  · rw [if_pos h, h]
    rfl
  · have hlow := ch.toInt8.le_toInt
    have hhigh := ch.toInt8.toInt_lt
    have hne : ch.toInt8.toInt ≠ (0x80 : UInt8).toInt8.toInt := fun heq =>
      h (congrArg Int8.toUInt8 (Int8.toInt_inj.mp heq))
    have hne' : ch.toInt8.toInt ≠ -128 := hne
    have hzero : ch.toInt8.toInt.tdiv 128 = 0 := by
      rw [Int.tdiv_eq_ediv, show Int.sign 128 = 1 from rfl]
      split_ifs <;> omega
    rw [if_neg h, guiGetObjFont, hzero]
    rfl

/-! ## Borders -/

/-- A border covers the frame without the text. -/
theorem inFrame_of_border {r g b : ℤ}
    (hc : c ∈ drawWindowBorder currY win.termX win.termY r g b) (hcov : c.Covers x (y + currY)) :
    win.InFrame x y ∧ ¬win.InBody x y := by
  simp only [drawWindowBorder, List.mem_cons, List.not_mem_nil, or_false] at hc
  unfold GuiWindow.InFrame GuiWindow.InBody
  rcases hc with rfl | rfl | rfl | rfl | rfl | rfl | rfl
  all_goals
    simp only [drawObject, Copy.Covers] at hcov
    try split_ifs at hcov
  all_goals
    simp only [guiObjWinUp, guiObjWinLeft, guiObjWinDown, guiObjWinRight, guiObjRed, guiObjYellow,
      guiObjGreen, guiObjGrey, terminalHeightPixel, terminalWidthPixel] at hcov
    omega

/-- All of the frame without the text is covered: above and below the text by the two
horizontal objects, and at its sides by the two vertical ones. -/
theorem border_covers (currY r g b : ℤ) (hf : win.InFrame x y) (hb : ¬win.InBody x y) :
    ∃ c ∈ drawWindowBorder currY win.termX win.termY r g b, c.Covers x (y + currY) := by
  unfold GuiWindow.InFrame at hf
  unfold GuiWindow.InBody at hb
  obtain h | h | h | h : y < win.termY ∨ win.termY + 480 ≤ y ∨
      (win.termY ≤ y ∧ y < win.termY + 480 ∧ x < win.termX) ∨
      (win.termY ≤ y ∧ y < win.termY + 480 ∧ win.termX + 640 ≤ x) := by
    omega
  · refine ⟨drawObject currY guiObjWinUp (win.termX - 6) (win.termY - 21),
      by simp [drawWindowBorder], ?_⟩
    simp only [drawObject, Copy.Covers, guiObjWinUp]
    omega
  · refine ⟨drawObject currY guiObjWinDown (win.termX - 6) (win.termY + terminalHeightPixel),
      by simp [drawWindowBorder], ?_⟩
    simp only [drawObject, Copy.Covers, guiObjWinDown, terminalHeightPixel]
    omega
  · refine ⟨drawObject currY guiObjWinLeft (win.termX - 6) win.termY,
      by simp [drawWindowBorder], ?_⟩
    simp only [drawObject, Copy.Covers, guiObjWinLeft]
    omega
  · refine ⟨drawObject currY guiObjWinRight (win.termX + terminalWidthPixel) win.termY,
      by simp [drawWindowBorder], ?_⟩
    simp only [drawObject, Copy.Covers, guiObjWinRight, terminalWidthPixel]
    omega

/-- The objects of the border are read below both buffers and the font. -/
theorem source_of_border {r g b : ℤ} (hc : c ∈ drawWindowBorder currY win.termX win.termY r g b)
    (hcov : c.Covers x y) : 1568 ≤ (c.source x y).2 := by
  simp only [drawWindowBorder, List.mem_cons, List.not_mem_nil, or_false] at hc
  rcases hc with rfl | rfl | rfl | rfl | rfl | rfl | rfl
  all_goals
    simp only [drawObject, Copy.Covers, Copy.source] at hcov ⊢
    try split_ifs at hcov ⊢
  all_goals
    simp only [guiObjWinUp, guiObjWinLeft, guiObjWinDown, guiObjWinRight, guiObjRed, guiObjYellow,
      guiObjGreen, guiObjGrey, winObjY] at hcov ⊢
    try split_ifs at hcov ⊢
    all_goals omega

/-- In the rest of the frame, the border hides the text. -/
theorem last_border {txt : List Copy} {r g b : ℤ} (hf : win.InFrame x y)
    (hbody : ¬win.InBody x y) :
    last (txt ++ drawWindowBorder currY win.termX win.termY r g b) x (y + currY) =
      last (drawWindowBorder currY win.termX win.termY r g b) x (y + currY) := by
  obtain ⟨c, hc, hcov⟩ := border_covers currY r g b hf hbody
  exact last_append_right hc hcov

/-! ## The text of a window -/

theorem mem_drawCell {g : Grid} {idx idy : ℕ} :
    c ∈ drawCell currY text g i win idx idy ↔
      ∃ q r, Span (g.x idx) (g.x (idx + 1)) win.termX 8 q ∧
        Span (g.y idy) (g.y (idy + 1)) win.termY 16 r ∧ c = charCopy currY win (text i) q r :=
  mem_drawTerminalContent

theorem mem_gridCells {g : Grid} {cell : ℕ × ℕ} :
    cell ∈ gridCells g ↔ (cell.1 : ℤ) < g.count ∧ (cell.2 : ℤ) < g.count := by
  obtain ⟨a, b⟩ := cell
  simp only [gridCells, List.mem_flatMap, List.mem_map, List.mem_range, Prod.mk.injEq]
  constructor
  · rintro ⟨a', ha, b', hb, rfl, rfl⟩
    exact ⟨Int.lt_toNat.mp ha, Int.lt_toNat.mp hb⟩
  · rintro ⟨ha, hb⟩
    exact ⟨a, Int.lt_toNat.mpr ha, b, Int.lt_toNat.mpr hb, rfl, rfl⟩

/-- The text that is drawn for an inactive window. -/
theorem mem_drawInactive : c ∈ drawInactive currY stack text (gridOf stack) i win ↔
    (∃ q r, Drawn stack i win q r ∧ c = charCopy currY win (text i) q r) ∨
      c ∈ drawWindowBorder currY win.termX win.termY (-1) (-1) (-1) := by
  rw [drawInactive, List.mem_append]
  apply or_congr_left
  rw [List.mem_flatMap]
  constructor
  · rintro ⟨cell, hcell, hc⟩
    split_ifs at hc with hown
    · obtain ⟨q, r, hq, hr, rfl⟩ := mem_drawCell.mp hc
      obtain ⟨hx, hy⟩ := mem_gridCells.mp hcell
      exact ⟨q, r, ⟨cell.1, cell.2, hx, hy, hown, hq, hr⟩, rfl⟩
    · exact absurd hc List.not_mem_nil
  · rintro ⟨q, r, ⟨idx, idy, hx, hy, hown, hq, hr⟩, rfl⟩
    refine ⟨(idx, idy), mem_gridCells.mpr ⟨hx, hy⟩, ?_⟩
    rw [if_pos hown]
    exact mem_drawCell.mpr ⟨q, r, hq, hr, rfl⟩

/-- The first part of `render_windows` draws such text only. -/
theorem mem_fillGrids (hc : c ∈ fillGrids currY stack text (gridOf stack)) :
    ∃ i win q r, stack i = some win ∧ Drawn stack i win q r ∧
      c = charCopy currY win (text i) q r := by
  obtain ⟨cell, hcell, hc⟩ := List.mem_flatMap.mp hc
  obtain ⟨hx, hy⟩ := mem_gridCells.mp hcell
  cases hown : gridOwner stack (gridOf stack) cell.1 cell.2 with
  | none =>
    rw [hown] at hc
    exact absurd hc List.not_mem_nil
  | some i =>
    rw [hown] at hc
    cases hwin : stack i with
    | none =>
      rw [Option.elim_some, hwin] at hc
      exact absurd hc List.not_mem_nil
    | some win =>
      rw [Option.elim_some, hwin] at hc
      obtain ⟨q, r, hq, hr, rfl⟩ := mem_drawCell.mp hc
      exact ⟨i, win, q, r, hwin, ⟨cell.1, cell.2, hx, hy, hown, hq, hr⟩, rfl⟩

/-- Only characters of the text buffer are drawn. -/
theorem Drawn.bounds {q r : ℤ} (hwin : stack i = some win) (h : Drawn stack i win q r) :
    i < guiMaxWindowNum ∧ (0 ≤ q ∧ q < 80) ∧ 0 ≤ r ∧ r < 30 := by
  obtain ⟨idx, idy, hidx, hidy, hown, hq, hr⟩ := h
  obtain ⟨hi, ⟨win', hwin', hbody⟩, -⟩ := findVisibleWinOn_eq_some.mp hown
  obtain rfl := Option.some.inj (hwin.symm.trans hwin')
  have hright := (line_x stack).gap hidx (edgeX_right hi hwin)
  have hbottom := (line_y stack).gap hidy (edgeY_bottom hi hwin)
  unfold GuiWindow.InBody at hbody
  unfold Span ceilDiv at hq hr
  refine ⟨hi, ?_, ?_⟩
  · omega
  · omega

theorem mem_drawWhole {r : ℤ} : c ∈ drawWhole currY text i win r ↔
    (∃ q r, (0 ≤ q ∧ q < 80) ∧ (0 ≤ r ∧ r < 30) ∧ c = charCopy currY win (text i) q r) ∨
      c ∈ drawWindowBorder currY win.termX win.termY r (-1) (-1) := by
  have hzero : drawTerminalContent currY (text i) 0 0 80 30 win.termX win.termY =
      drawTerminalContent currY (text i) 0 0 80 30 (win.termX + 0 * fontWidth)
        (win.termY + 0 * fontHeight) := by
    rw [zero_mul, zero_mul, add_zero, add_zero]
  rw [drawWhole, List.mem_append, hzero, mem_drawTerminalContent]
  simp only [zero_add]

/-- In its text, a window with its complete text shows the character there. -/
theorem last_drawWhole {r : ℤ} (hbody : win.InBody x y) :
    last (drawWhole currY text i win r) x (y + currY) =
      some (charCopy currY win (text i) ((x - win.termX) / 8) ((y - win.termY) / 16)) := by
  have hin := hbody
  unfold GuiWindow.InBody at hin
  apply last_eq_some
  · exact mem_drawWhole.mpr (Or.inl ⟨_, _, by omega, by omega, rfl⟩)
  · exact covers_charCopy.mpr ⟨rfl, rfl⟩
  · intro d hd hcov
    rcases mem_drawWhole.mp hd with ⟨q, r, -, -, rfl⟩ | hborder
    · obtain ⟨rfl, rfl⟩ := covers_charCopy.mp hcov
      rfl
    · exact absurd hbody (inFrame_of_border hborder hcov).2

/-- An inactive window does so where the character is drawn from one of its cells. -/
theorem last_drawInactive (hbody : win.InBody x y)
    (h : Drawn stack i win ((x - win.termX) / 8) ((y - win.termY) / 16)) :
    last (drawInactive currY stack text (gridOf stack) i win) x (y + currY) =
      some (charCopy currY win (text i) ((x - win.termX) / 8) ((y - win.termY) / 16)) := by
  apply last_eq_some
  · exact mem_drawInactive.mpr (Or.inl ⟨_, _, h, rfl⟩)
  · exact covers_charCopy.mpr ⟨rfl, rfl⟩
  · intro d hd hcov
    rcases mem_drawInactive.mp hd with ⟨q, r, -, rfl⟩ | hborder
    · obtain ⟨rfl, rfl⟩ := covers_charCopy.mp hcov
      rfl
    · exact absurd hbody (inFrame_of_border hborder hcov).2

/-! ## Pieces of a window -/

/-- A copy that is made for a window: a character of its text, or an object of its border. -/
inductive Piece (currY : ℤ) (buf : ℤ → UInt8) (win : GuiWindow) : Copy → Prop
  | char (q r : ℤ) (hq : 0 ≤ q ∧ q < 80) (hr : 0 ≤ r ∧ r < 30) :
    Piece currY buf win (charCopy currY win buf q r)
  | border (r g b : ℤ) (c : Copy)
    (hc : c ∈ drawWindowBorder currY win.termX win.termY r g b) : Piece currY buf win c

namespace Piece

variable {buf : ℤ → UInt8}

/-- A piece stays inside of the frame. -/
theorem inFrame (h : Piece currY buf win c) (hcov : c.Covers x (y + currY)) :
    win.InFrame x y := by
  cases h with
  | char q r hq hr =>
    obtain ⟨rfl, rfl⟩ := covers_charCopy.mp hcov
    unfold GuiWindow.InFrame
    omega
  | border r g b _ hc => exact (inFrame_of_border hc hcov).1

/-- A piece of a window at a valid position is drawn to the buffer, and is read below both
buffers, but for the glyph of byte `0x80`. -/
theorem apart (h : Piece currY buf win c) (hvalid : win.Valid) (hc : currY = 0 ∨ currY = 768)
    (hbuf : currY = 768 → ∀ k, buf k ≠ 0x80) (hcov : c.Covers x y) :
    (currY ≤ y ∧ y < currY + 768) ∧
      ¬(currY ≤ (c.source x y).2 ∧ (c.source x y).2 < currY + 768) := by
  have hy : y - currY + currY = y := by omega
  have hframe := h.inFrame (y := y - currY) (by rwa [hy])
  have hpos := win.valid_iff.mp hvalid
  unfold GuiWindow.InFrame at hframe
  refine ⟨by omega, ?_⟩
  cases h with
  | char q r hq hr =>
    have hrow := guiGetObjFont_y (buf (r * 80 + q))
    have hheight : (guiGetObjFont (buf (r * 80 + q))).height = 16 := rfl
    simp only [charCopy, printChar, drawObject, Copy.Covers, Copy.source] at hcov ⊢
    rcases hc with rfl | rfl
    · split_ifs at hrow <;> omega
    · rw [if_neg (hbuf rfl _)] at hrow
      omega
  | border r g b _ hc' =>
    have hrow := source_of_border hc' hcov
    omega

end Piece

/-! ## Windows as layers -/

/-- What `render_windows` draws for the window at an index, after the cells. -/
def renderLayer (currY : ℤ) (stack : WindowStack) (text : ℕ → ℤ → UInt8) (i : ℕ) : List Copy :=
  (stack i).elim [] fun win =>
    if i = 0 then drawWhole currY text 0 win 0
    else drawInactive currY stack text (gridOf stack) i win

/-- What the painter draws for it. -/
def paintLayer (currY : ℤ) (stack : WindowStack) (text : ℕ → ℤ → UInt8) (i : ℕ) : List Copy :=
  (stack i).elim [] fun win => drawWhole currY text i win (if i = 0 then 0 else -1)

theorem renderWindows_eq (currY : ℤ) (stack : WindowStack) (text : ℕ → ℤ → UInt8) :
    renderWindows currY stack text =
      fillGrids currY stack text (gridOf stack) ++
        layers (renderLayer currY stack text) guiMaxWindowNum := by
  simp [renderWindows, layers, renderLayer]

theorem paintWindows_eq (currY : ℤ) (stack : WindowStack) (text : ℕ → ℤ → UInt8) :
    paintWindows currY stack text = layers (paintLayer currY stack text) guiMaxWindowNum := by
  simp [paintWindows, layers, paintLayer]

/-- Every layer consists of pieces of its window. -/
def PieceLayers (currY : ℤ) (stack : WindowStack) (text : ℕ → ℤ → UInt8)
    (f : ℕ → List Copy) : Prop :=
  ∀ i c, c ∈ f i → ∃ win, stack i = some win ∧ Piece currY (text i) win c

theorem pieceLayers_render (currY : ℤ) (stack : WindowStack) (text : ℕ → ℤ → UInt8) :
    PieceLayers currY stack text (renderLayer currY stack text) := by
  intro i c hc
  unfold renderLayer at hc
  cases hwin : stack i with
  | none =>
    rw [hwin] at hc
    exact absurd hc List.not_mem_nil
  | some win =>
    rw [hwin, Option.elim_some] at hc
    refine ⟨win, rfl, ?_⟩
    split_ifs at hc with hi
    · obtain ⟨q, r, hq, hr, rfl⟩ | hborder := mem_drawWhole.mp hc
      · rw [hi]
        exact .char q r hq hr
      · exact .border _ _ _ _ hborder
    · obtain ⟨q, r, hdrawn, rfl⟩ | hborder := mem_drawInactive.mp hc
      · obtain ⟨-, hq, hr⟩ := hdrawn.bounds hwin
        exact .char q r hq hr
      · exact .border _ _ _ _ hborder

theorem pieceLayers_paint (currY : ℤ) (stack : WindowStack) (text : ℕ → ℤ → UInt8) :
    PieceLayers currY stack text (paintLayer currY stack text) := by
  intro i c hc
  unfold paintLayer at hc
  cases hwin : stack i with
  | none =>
    rw [hwin] at hc
    exact absurd hc List.not_mem_nil
  | some win =>
    rw [hwin, Option.elim_some] at hc
    refine ⟨win, rfl, ?_⟩
    obtain ⟨q, r, hq, hr, rfl⟩ | hborder := mem_drawWhole.mp hc
    · exact .char q r hq hr
    · exact .border _ _ _ _ hborder

/-- Every copy of `render_windows` is a piece of a window. -/
theorem mem_renderWindows (hc : c ∈ renderWindows currY stack text) :
    ∃ i < guiMaxWindowNum, ∃ win, stack i = some win ∧ Piece currY (text i) win c := by
  rw [renderWindows_eq, List.mem_append, mem_layers] at hc
  rcases hc with hc | ⟨i, hi, hc⟩
  · obtain ⟨i, win, q, r, hwin, hdrawn, rfl⟩ := mem_fillGrids hc
    obtain ⟨hi, hq, hr⟩ := hdrawn.bounds hwin
    exact ⟨i, hi, win, hwin, .char q r hq hr⟩
  · exact ⟨i, hi, pieceLayers_render currY stack text i c hc⟩

theorem mem_paintWindows (hc : c ∈ paintWindows currY stack text) :
    ∃ i < guiMaxWindowNum, ∃ win, stack i = some win ∧ Piece currY (text i) win c := by
  rw [paintWindows_eq, mem_layers] at hc
  obtain ⟨i, hi, hc⟩ := hc
  exact ⟨i, hi, pieceLayers_paint currY stack text i c hc⟩

/-! ## Pixels -/

/-- The topmost window whose frame has a pixel. -/
structure Topmost (stack : WindowStack) (i : ℕ) (win : GuiWindow) (x y : ℤ) : Prop where
  lt : i < guiMaxWindowNum
  here : stack i = some win
  frame : win.InFrame x y
  visible : ∀ j < i, ∀ v, stack j = some v → ¬v.InFrame x y

theorem exists_topmost {k : ℕ} {v : GuiWindow} (hk : k < guiMaxWindowNum) (hv : stack k = some v)
    (hf : v.InFrame x y) : ∃ i win, Topmost stack i win x y := by
  classical
  have hex : ∃ i, ∃ win, stack i = some win ∧ win.InFrame x y := ⟨k, v, hv, hf⟩
  obtain ⟨win, hwin, hframe⟩ := Nat.find_spec hex
  have hle := Nat.find_min' hex ⟨v, hv, hf⟩
  refine ⟨Nat.find hex, win, hle.trans_lt hk, hwin, hframe, fun j hj u hu hin => ?_⟩
  exact Nat.find_min hex hj ⟨u, hu, hin⟩

namespace Topmost

variable {f : ℕ → List Copy} (h : Topmost stack i win x y)
  (hf : PieceLayers currY stack text f)
include h hf

/-- When the layer of the topmost window covers a pixel, it decides. -/
theorem last_layers (hc : c ∈ f i) (hcov : c.Covers x (y + currY)) :
    last (layers f guiMaxWindowNum) x (y + currY) = last (f i) x (y + currY) := by
  apply Blit.last_layers h.lt hc hcov
  intro j hj d hd hdcov
  obtain ⟨v, hv, hpiece⟩ := hf j d hd
  exact h.visible j hj v hv (hpiece.inFrame hdcov)

/-- Outside of its text, its border does. -/
theorem last_border {txt : List Copy} {r g b : ℤ} (hbody : ¬win.InBody x y)
    (hlayer : f i = txt ++ drawWindowBorder currY win.termX win.termY r g b) :
    last (layers f guiMaxWindowNum) x (y + currY) =
      last (drawWindowBorder currY win.termX win.termY r g b) x (y + currY) := by
  obtain ⟨c, hc, hcov⟩ := border_covers currY r g b h.frame hbody
  rw [h.last_layers hf (c := c) (by rw [hlayer]; exact List.mem_append_right _ hc) hcov, hlayer]
  exact AuroraOS.last_border h.frame hbody

/-- In its text, the character does that it shows there. -/
theorem last_char (hshow : last (f i) x (y + currY) = some c) :
    last (layers f guiMaxWindowNum) x (y + currY) = some c := by
  obtain ⟨hc, hcov⟩ := last_mem hshow
  rw [h.last_layers hf hc hcov, hshow]

end Topmost

theorem paintLayer_some (h : stack i = some win) : paintLayer currY stack text i =
    drawWhole currY text i win (if i = 0 then 0 else -1) := by
  rw [paintLayer, h, Option.elim_some]

theorem renderLayer_some (h : stack i = some win) : renderLayer currY stack text i =
    if i = 0 then drawWhole currY text 0 win 0
    else drawInactive currY stack text (gridOf stack) i win := by
  rw [renderLayer, h, Option.elim_some]

/-- The layer of `render_windows` ends with the border of the window. -/
theorem renderLayer_border (currY : ℤ) (text : ℕ → ℤ → UInt8) (h : stack i = some win) :
    ∃ txt, renderLayer currY stack text i =
      txt ++ drawWindowBorder currY win.termX win.termY (if i = 0 then 0 else -1) (-1) (-1) := by
  rw [renderLayer_some h]
  split_ifs with hi
  · exact ⟨_, rfl⟩
  · exact ⟨_, rfl⟩

/-- In its text, it shows the character of a pixel that is not missed. -/
theorem last_renderLayer (currY : ℤ) (text : ℕ → ℤ → UInt8) (h : Topmost stack i win x y)
    (hbody : win.InBody x y) (hmissed : ¬MissedPixel stack i win x y) :
    last (renderLayer currY stack text i) x (y + currY) =
      some (charCopy currY win (text i) ((x - win.termX) / 8) ((y - win.termY) / 16)) := by
  rw [renderLayer_some h.here]
  split_ifs with hi
  · rw [last_drawWhole hbody, hi]
  · apply last_drawInactive hbody
    by_contra hdrawn
    exact hmissed ⟨⟨Nat.one_le_iff_ne_zero.mpr hi, h.lt, h.here, hbody, h.visible⟩, hdrawn⟩

/-- **A pixel that is not missed** shows the same with both algorithms. -/
theorem last_renderWindows (hmissed : ∀ i win, ¬MissedPixel stack i win x y) :
    last (renderWindows currY stack text) x (y + currY) =
      last (paintWindows currY stack text) x (y + currY) := by
  by_cases hex : ∃ i win, Topmost stack i win x y
  · obtain ⟨i, win, h⟩ := hex
    have hrender := pieceLayers_render currY stack text
    have hpaint := pieceLayers_paint currY stack text
    rw [renderWindows_eq, paintWindows_eq]
    by_cases hbody : win.InBody x y
    · have hlast := last_renderLayer currY text h hbody (hmissed i win)
      obtain ⟨hc, hcov⟩ := last_mem hlast
      rw [last_append_right (mem_layers.mpr ⟨i, h.lt, hc⟩) hcov, h.last_char hrender hlast,
        h.last_char hpaint (by rw [paintLayer_some h.here, last_drawWhole hbody])]
    · obtain ⟨txt, htxt⟩ := renderLayer_border currY text h.here
      obtain ⟨c, hc, hcov⟩ := border_covers currY (if i = 0 then 0 else -1) (-1) (-1) h.frame hbody
      rw [last_append_right (mem_layers.mpr ⟨i, h.lt, by
          rw [htxt]
          exact List.mem_append_right _ hc⟩) hcov,
        h.last_border hrender hbody htxt,
        h.last_border hpaint hbody (paintLayer_some h.here)]
  · have hnone : ∀ k < guiMaxWindowNum, ∀ v, stack k = some v → ∀ c,
        Piece currY (text k) v c → ¬c.Covers x (y + currY) := fun k hk v hv c hc hcov =>
      hex (exists_topmost hk hv (hc.inFrame hcov))
    have hrender : last (renderWindows currY stack text) x (y + currY) = none := by
      refine last_eq_none.mpr fun c hc => ?_
      obtain ⟨k, hk, v, hv, hpiece⟩ := mem_renderWindows hc
      exact hnone k hk v hv c hpiece
    have hpaint : last (paintWindows currY stack text) x (y + currY) = none := by
      refine last_eq_none.mpr fun c hc => ?_
      obtain ⟨k, hk, v, hv, hpiece⟩ := mem_paintWindows hc
      exact hnone k hk v hv c hpiece
    rw [hrender, hpaint]

/-! ## A missed pixel shows something else -/

/-- The letter `a` everywhere in one window, and the letter `b` in all the others. -/
def letterText (i : ℕ) : ℕ → ℤ → UInt8 := fun j _ => if j = i then 97 else 98

/-- A picture with nothing but the glyph of the letter `a`, as a filled rectangle. -/
def letterPicture : Picture Pixel := fun x y =>
  if (776 ≤ x ∧ x < 784) ∧ 1536 ≤ y ∧ y < 1552 then 1 else 0

theorem letterText_ne (i j : ℕ) (k : ℤ) : letterText i j k ≠ 0x80 := by
  unfold letterText
  split_ifs <;> decide

/-- What a copy draws into `letterPicture`. -/
def shows (c : Copy) (x y : ℤ) : Pixel := letterPicture (c.source x y).1 (c.source x y).2

theorem shows_char {q r : ℤ} {j : ℕ} (hcov :
    (charCopy currY win (letterText i j) q r).Covers x (y + currY)) :
    shows (charCopy currY win (letterText i j) q r) x (y + currY) = if j = i then 1 else 0 := by
  obtain ⟨rfl, rfl⟩ := covers_charCopy.mp hcov
  have ha : guiGetObjFont 97 = { x := 776, y := 1536, width := 8, height := 16 } := rfl
  have hb : guiGetObjFont 98 = { x := 784, y := 1536, width := 8, height := 16 } := rfl
  unfold shows letterPicture
  simp only [charCopy, printChar, drawObject, Copy.source, letterText]
  by_cases hj : j = i
  · simp only [if_pos hj, ha]
    exact if_pos (by omega)
  · simp only [if_neg hj, hb]
    exact if_neg (by omega)

theorem shows_border {r g b : ℤ} (hc : c ∈ drawWindowBorder currY win.termX win.termY r g b)
    (hcov : c.Covers x y) : shows c x y = 0 := by
  have hrow := source_of_border hc hcov
  exact if_neg (by omega)

/-- No copy that `render_windows` makes at a missed pixel shows the letter `a`. -/
theorem MissedPixel.shows_render (h : MissedPixel stack i win x y)
    (hc : c ∈ renderWindows currY stack (letterText i)) (hcov : c.Covers x (y + currY)) :
    shows c x (y + currY) = 0 := by
  -- a character at the pixel is from another window
  have hchar : ∀ j v q r, stack j = some v → (j = i → Drawn stack i win q r) →
      (charCopy currY v (letterText i j) q r).Covers x (y + currY) →
      shows (charCopy currY v (letterText i j) q r) x (y + currY) = 0 := by
    intro j v q r hv hdrawn hcov
    rw [shows_char hcov]
    refine if_neg fun hj => h.missed ?_
    obtain rfl : v = win := Option.some.inj ((hj ▸ hv.symm).trans h.here)
    obtain ⟨rfl, rfl⟩ := covers_charCopy.mp hcov
    exact hdrawn hj
  rw [renderWindows_eq, List.mem_append, mem_layers] at hc
  rcases hc with hc | ⟨j, hj, hc⟩
  · obtain ⟨j, v, q, r, hv, hdrawn, rfl⟩ := mem_fillGrids hc
    refine hchar j v q r hv (fun hji => ?_) hcov
    subst hji
    obtain rfl := Option.some.inj (hv.symm.trans h.here)
    exact hdrawn
  · obtain ⟨v, hv, hpiece⟩ := pieceLayers_render currY stack _ j c hc
    have hji : i ≤ j := by
      by_contra hlt
      exact h.visible j (not_le.mp hlt) v hv (hpiece.inFrame hcov)
    have hpos := h.pos
    rw [renderLayer_some hv, if_neg (by omega)] at hc
    rcases mem_drawInactive.mp hc with ⟨q, r, hdrawn, rfl⟩ | hborder
    · refine hchar j v q r hv (fun hji => ?_) hcov
      subst hji
      obtain rfl := Option.some.inj (hv.symm.trans h.here)
      exact hdrawn
    · exact shows_border hborder hcov

/-! ## Both algorithms -/

/-- The rows of the buffer that is drawn to. -/
def InBuffer (currY : ℤ) (_ y : ℤ) : Prop := currY ≤ y ∧ y < currY + 768

/-- Copies that are pieces of windows at valid positions do not read the buffer. -/
theorem apart_of_pieces {cs : List Copy} (hvalid : stack.Valid)
    (hc : currY = 0 ∨ currY = 768) (htext : currY = 768 → ∀ i k, text i k ≠ 0x80)
    (hcs : ∀ c ∈ cs, ∃ i < guiMaxWindowNum, ∃ win, stack i = some win ∧
      Piece currY (text i) win c) : Apart (InBuffer currY) cs := by
  intro c hmem x y hcov
  obtain ⟨i, hi, win, hwin, hpiece⟩ := hcs c hmem
  exact hpiece.apart (hvalid i hi win hwin) hc (fun h => htext h i) hcov

/-- **A missed pixel is drawn differently**: the painter shows the letter of its window. -/
theorem MissedPixel.differs (h : MissedPixel stack i win x y) (hvalid : stack.Valid)
    (hc : currY = 0 ∨ currY = 768) :
    exec (renderWindows currY stack (letterText i)) letterPicture x (y + currY) = 0 ∧
      exec (paintWindows currY stack (letterText i)) letterPicture x (y + currY) = 1 := by
  have htext : currY = 768 → ∀ j k, letterText i j k ≠ 0x80 := fun _ j k => letterText_ne i j k
  have hin := h.body
  have hpos := win.valid_iff.mp (hvalid i h.lt win h.here)
  unfold GuiWindow.InBody at hin
  constructor
  · rw [exec_eq (apart_of_pieces hvalid hc htext fun c => mem_renderWindows)]
    cases hlast : last (renderWindows currY stack (letterText i)) x (y + currY) with
    | none => exact if_neg (by omega)
    | some c =>
      obtain ⟨hmem, hcov⟩ := last_mem hlast
      exact h.shows_render hmem hcov
  · have htop : Topmost stack i win x y :=
      ⟨h.lt, h.here, GuiWindow.inFrame_of_inBody h.body, h.visible⟩
    have hlast := htop.last_char (pieceLayers_paint currY stack (letterText i))
      (by rw [paintLayer_some h.here, last_drawWhole h.body])
    rw [exec_eq (apart_of_pieces hvalid hc htext fun c => mem_paintWindows), paintWindows_eq, hlast]
    have hshow := shows_char (i := i) (j := i) (last_mem hlast).2
    rw [if_pos rfl] at hshow
    exact hshow

/-- Two windows that overlap. -/
def stackOfTwo : WindowStack
  | 0 => some { termX := 6, termY := 21, terminalId := 0 }
  | 1 => some { termX := 300, termY := 100, terminalId := 1 }
  | _ => none

/-- A window over a second one; the left edge of the third one is eight columns in front of
the text of the first. -/
def stackOfThree : WindowStack
  | 0 => some { termX := 115, termY := 200, terminalId := 0 }
  | 1 => some { termX := 100, termY := 100, terminalId := 1 }
  | 2 => some { termX := 107, termY := 250, terminalId := 2 }
  | _ => none

end AuroraOS
