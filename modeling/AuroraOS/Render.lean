/-
# Rendering the windows

`render_windows` of `gui/gui_render.c`: the edges of the text areas cut the screen into a grid,
every cell of the grid has at most one visible window, and only the characters of visible
cells are drawn.  Control flow does not depend on what is on the screen, so rendering is the
list of the calls of `vga_screen_copy` in their order; all objects are read from video memory
below the two buffers.

`paintWindows` is the painter's algorithm that this is meant to be a faster form of.
-/
import AuroraOS.Gui
import AuroraOS.QuickSort
import AuroraOS.Blit

namespace AuroraOS

open Blit

/-- A pixel of video memory: 15 bits of colour. -/
abbrev Pixel := UInt16

/-! ## Objects -/

/-- `FONT_WIDTH`. -/
abbrev fontWidth : ℤ := 8
/-- `FONT_HEIGHT`. -/
abbrev fontHeight : ℤ := 16
/-- `VGA_HEIGHT * 2 + FONT_HEIGHT * 2`: the first row of the window objects. -/
abbrev winObjY : ℤ := 768 * 2 + 16 * 2

/-- `gui_object_t`, of an object in video memory. -/
structure GuiObject where
  x : ℤ
  y : ℤ
  width : ℤ
  height : ℤ

/-- `gui_get_obj_font`; a `char` is signed. -/
def guiGetObjFont (ch : UInt8) : GuiObject where
  x := ch.toNat % 128 * fontWidth
  y := vgaHeight * 2 + ch.toInt8.toInt.tdiv 128 * fontHeight
  width := fontWidth
  height := fontHeight

/-- `gui_obj_win_up`. -/
def guiObjWinUp : GuiObject := { x := 0, y := winObjY, width := 652, height := 21 }
/-- `gui_obj_win_down`. -/
def guiObjWinDown : GuiObject := { x := 0, y := winObjY + 25, width := 652, height := 4 }
/-- `gui_obj_win_left`. -/
def guiObjWinLeft : GuiObject := { x := 1024 - 16, y := winObjY, width := 6, height := 480 }
/-- `gui_obj_win_right`. -/
def guiObjWinRight : GuiObject := { x := 1024 - 8, y := winObjY, width := 6, height := 480 }
/-- `gui_obj_red`: both are the same. -/
def guiObjRed (_ : ℤ) : GuiObject := { x := 16 * 41, y := winObjY, width := 11, height := 12 }
/-- `gui_obj_yellow`. -/
def guiObjYellow (y : ℤ) : GuiObject where
  x := 16 * 41 + 16
  y := if y = 0 then winObjY else winObjY + 16
  width := 12
  height := 12
/-- `gui_obj_green`. -/
def guiObjGreen (g : ℤ) : GuiObject where
  x := 16 * 41 + 16 + 16
  y := if g = 0 then winObjY else winObjY + 16
  width := 11
  height := 12
/-- `gui_obj_grey`. -/
def guiObjGrey : GuiObject := { x := 16 * 41, y := winObjY + 16, width := 12, height := 12 }

/-! ## Drawing -/

section Drawing

-- `curr_y`: the row of video memory where the buffer starts
variable (currY : ℤ)

/-- `draw_object`. -/
def drawObject (obj : GuiObject) (x y : ℤ) : Copy where
  srcX := obj.x
  srcY := obj.y
  dstX := x
  dstY := y + currY
  width := obj.width
  height := obj.height

/-- `print_char`. -/
def printChar (ch : UInt8) (x y : ℤ) : Copy := drawObject currY (guiGetObjFont ch) x y

/-- `draw_window_border`. -/
def drawWindowBorder (terminalX terminalY r y g : ℤ) : List Copy :=
  [drawObject currY guiObjWinUp (terminalX - 6) (terminalY - 21),
    drawObject currY guiObjWinLeft (terminalX - 6) terminalY,
    drawObject currY guiObjWinDown (terminalX - 6) (terminalY + terminalHeightPixel),
    drawObject currY guiObjWinRight (terminalX + terminalWidthPixel) terminalY,
    drawObject currY (if r = -1 then guiObjGrey else guiObjRed r) (terminalX + 4) (terminalY - 17),
    drawObject currY (if y = -1 then guiObjGrey else guiObjYellow y) (terminalX + 22)
      (terminalY - 17),
    drawObject currY (if g = -1 then guiObjGrey else guiObjGreen g) (terminalX + 41)
      (terminalY - 17)]

/-- `draw_terminal_content`. -/
def drawTerminalContent (buf : ℤ → UInt8) (bufStartX bufStartY bufCols bufRows termX termY : ℤ) :
    List Copy :=
  (List.range bufRows.toNat).flatMap fun y : ℕ => (List.range bufCols.toNat).map fun x : ℕ =>
    printChar currY (buf ((y + bufStartY) * 80 + (x + bufStartX)))
      (x * fontWidth + termX) (y * fontHeight + termY)

end Drawing

/-! ## The grid -/

/-- `quick_sort` of the elements `low .. high`. -/
def quickSort (arr : ℤ → ℤ) (low high : ℤ) : ℤ → ℤ :=
  QuickSort.sort (high - low + 1).toNat arr low high

theorem quickSort_sortedOn (arr : ℤ → ℤ) (low high : ℤ) :
    QuickSort.SortedOn (quickSort arr low high) low high :=
  (QuickSort.sort_spec _ arr low high (by omega)).2

theorem quickSort_rearranges (arr : ℤ → ℤ) (low high : ℤ) :
    QuickSort.Rearranges low high arr (quickSort arr low high) :=
  (QuickSort.sort_spec _ arr low high (by omega)).1

/-- `grid_count`, `grid_x` and `grid_y`. -/
structure Grid where
  count : ℤ
  x : ℤ → ℤ
  y : ℤ → ℤ

/-- `window_stack`, with index 0 on the top. -/
abbrev WindowStack := ℕ → Option GuiWindow

namespace Grid

/-- The grid of an empty screen. -/
def screen : Grid where
  count := 1
  x := Function.update (Function.update (fun _ => 0) 0 0) 1 vgaWidth
  y := Function.update (Function.update (fun _ => 0) 0 0) 1 vgaHeight

/-- The edges of one window are added. -/
def add (g : Grid) (win : GuiWindow) : Grid where
  count := g.count + 2
  x := Function.update (Function.update g.x (g.count + 1) win.termX) (g.count + 2)
    (win.termX + terminalWidthPixel)
  y := Function.update (Function.update g.y (g.count + 1) win.termY) (g.count + 2)
    (win.termY + terminalHeightPixel)

/-- The loop over the windows with an index below `n`. -/
def generate (stack : WindowStack) : ℕ → Grid
  | 0 => screen
  | n + 1 => (stack n).elim (generate stack n) (generate stack n).add

/-- The edges in order. -/
def sorted (g : Grid) : Grid where
  count := g.count
  x := quickSort g.x 0 g.count
  y := quickSort g.y 0 g.count

end Grid

/-- The grid that `render_windows` works on. -/
def gridOf (stack : WindowStack) : Grid := (Grid.generate stack guiMaxWindowNum).sorted

/-- `check_inside_window`, which takes `NULL` too. -/
def GuiWindow.check (x y : ℤ) : Option GuiWindow → CursorPosition
  | none => .notInWindow
  | some win => win.checkInside x y

/-- `find_visible_win_on`: the index of the window. -/
def findVisibleWinOn (stack : WindowStack) (x y : ℤ) : Option ℕ :=
  (List.range guiMaxWindowNum).find? fun i => GuiWindow.check x y (stack i) = .inBody

/-- `ceil_div`. -/
def ceilDiv (x y : ℤ) : ℤ := (x + y - 1) / y

/-! ## Rendering -/

section Rendering

-- `curr_y`, `window_stack`, and the text buffer of the window at every index
variable (currY : ℤ) (stack : WindowStack) (text : ℕ → ℤ → UInt8)

/-- The part of the window `i` in one cell of the grid. -/
def drawCell (g : Grid) (i : ℕ) (win : GuiWindow) (idx idy : ℕ) : List Copy :=
  let bufStartX := (g.x idx - win.termX) / fontWidth
  let bufCols := ceilDiv (g.x (idx + 1) - g.x idx) fontWidth
  let bufStartY := (g.y idy - win.termY) / fontHeight
  let bufRows := ceilDiv (g.y (idy + 1) - g.y idy) fontHeight
  drawTerminalContent currY (text i) bufStartX bufStartY bufCols bufRows
    (win.termX + bufStartX * fontWidth) (win.termY + bufStartY * fontHeight)

/-- `grid[idx][idy]`. -/
def gridOwner (g : Grid) (idx idy : ℕ) : Option ℕ := findVisibleWinOn stack (g.x idx) (g.y idy)

/-- All pairs of grid indices, in the order of the loops. -/
def gridCells (g : Grid) : List (ℕ × ℕ) :=
  (List.range g.count.toNat).flatMap fun idx => (List.range g.count.toNat).map fun idy => (idx, idy)

/-- The first part of `render_windows`: every cell is drawn. -/
def fillGrids (g : Grid) : List Copy :=
  (gridCells g).flatMap fun cell =>
    (gridOwner stack g cell.1 cell.2).elim [] fun i =>
      (stack i).elim [] fun win => drawCell currY text g i win cell.1 cell.2

/-- An inactive window: the cells where it is visible, and its border. -/
def drawInactive (g : Grid) (i : ℕ) (win : GuiWindow) : List Copy :=
  ((gridCells g).flatMap fun cell =>
    if gridOwner stack g cell.1 cell.2 = some i then drawCell currY text g i win cell.1 cell.2
    else []) ++
  drawWindowBorder currY win.termX win.termY (-1) (-1) (-1)

/-- A window with its complete text. -/
def drawWhole (i : ℕ) (win : GuiWindow) (r : ℤ) : List Copy :=
  drawTerminalContent currY (text i) 0 0 80 30 win.termX win.termY ++
  drawWindowBorder currY win.termX win.termY r (-1) (-1)

/-- `render_windows`. -/
def renderWindows : List Copy :=
  let g := gridOf stack
  fillGrids currY stack text g ++
  ([4, 3, 2, 1].flatMap fun i => (stack i).elim [] (drawInactive currY stack text g i)) ++
  (stack 0).elim [] fun win => drawWhole currY text 0 win 0

/-- **The painter's algorithm**: all windows with their complete text, from the bottom to the
top. -/
def paintWindows : List Copy :=
  [4, 3, 2, 1, 0].flatMap fun i =>
    (stack i).elim [] fun win => drawWhole currY text i win (if i = 0 then 0 else -1)

end Rendering

end AuroraOS
