/-
# Windows

The window stack of `gui/gui_window.c`.  A window lives in its terminal, so the stack
holds terminal ids, and `none` for `NULL`.
-/
import AuroraOS.Sched

namespace AuroraOS

/-- `GUI_MAX_WINDOW_NUM`. -/
abbrev guiMaxWindowNum : ℕ := 5

/-! ## The stack -/

namespace Gui

variable (g : Gui)

/-- `find_window_idx`; `none` is -1. -/
def findWindowIdx (win : Option TermId) : Option ℕ := g.windowStack.findIdx? (· = win)

/-- The loop of `gui_activate_window`: the windows above `idx` move down by one. -/
def raise (idx : ℕ) (win : TermId) : Gui :=
  { g with windowStack := some win :: g.windowStack.take idx ++ g.windowStack.drop (idx + 1) }

/-- The loop of `gui_destroy_window`: the windows below `idx` move up by one. -/
def remove (idx : ℕ) : Gui :=
  { g with windowStack := g.windowStack.take idx ++ g.windowStack.drop (idx + 1) ++ [none] }

/-- `window_stack[idx] = win`. -/
def put (idx : ℕ) (win : TermId) : Gui :=
  { g with windowStack := g.windowStack.set idx (some win) }

/-- `gui_destroy_window`. -/
def destroyWindow (win : TermId) : Gui :=
  match g.findWindowIdx (some win) with
  | none => g
  | some idx => g.remove idx

end Gui

/-! ## Positions -/

/-- `cursor_position_t`. -/
inductive CursorPosition where
  | notInWindow
  | inBody
  | inTitleBar
  | onBorder
  | inRedButton
  | inYellowButton
  | inGreenButton
  deriving DecidableEq

/-- `GUI_WIN_LEFT_RIGHT_MARGIN`. -/
abbrev guiWinLeftRightMargin : ℤ := 6
/-- `GUI_WIN_TITLE_BAR_HEIGHT`. -/
abbrev guiWinTitleBarHeight : ℤ := 21
/-- `GUI_WIN_DOWN_MARGIN`. -/
abbrev guiWinDownMargin : ℤ := 4
/-- `TERMINAL_WIDTH_PIXEL`. -/
abbrev terminalWidthPixel : ℤ := 640
/-- `TERMINAL_HEIGHT_PIXEL`. -/
abbrev terminalHeightPixel : ℤ := 480
/-- `VGA_WIDTH`. -/
abbrev vgaWidth : ℤ := 1024
/-- `VGA_HEIGHT`. -/
abbrev vgaHeight : ℤ := 768
/-- `STATUS_BAR_HEIGHT`. -/
abbrev statusBarHeight : ℤ := 23
/-- `TERMINAL_B_X`. -/
abbrev terminalBX : ℤ := 923
/-- `WIN_TERMINAL_B_WIDTH`. -/
abbrev winTerminalBWidth : ℤ := 22

namespace GuiWindow

variable (win : GuiWindow)

/-- The cursor is in the button with this left and upper margin, width and height. -/
def inButton (x y left up width height : ℤ) : Prop :=
  x ≥ win.termX + left ∧ x < win.termX + left + width ∧
    y ≥ win.termY - up ∧ y < win.termY - up + height

instance (x y left up width height : ℤ) : Decidable (win.inButton x y left up width height) :=
  inferInstanceAs (Decidable (_ ∧ _ ∧ _ ∧ _))

/-- `check_inside_window` of a window that is not `NULL`. -/
def checkInside (x y : ℤ) : CursorPosition :=
  if x < win.termX - guiWinLeftRightMargin ∨
      x ≥ win.termX + terminalWidthPixel + guiWinLeftRightMargin ∨
      y < win.termY - guiWinTitleBarHeight ∨
      y ≥ win.termY + terminalHeightPixel + guiWinDownMargin then .notInWindow
  else if y < win.termY then
    if win.inButton x y 4 17 11 12 then .inRedButton
    else if win.inButton x y 22 17 12 12 then .inYellowButton
    else if win.inButton x y 41 17 11 12 then .inGreenButton
    else .inTitleBar
  else if x ≥ win.termX ∧ x < win.termX + terminalWidthPixel ∧
      y ≥ win.termY ∧ y < win.termY + terminalHeightPixel then .inBody
  else .onBorder

/-- `is_valid_position`. -/
def isValidPosition (termX termY : ℤ) : Bool :=
  !(termX - guiWinLeftRightMargin < 0) &&
  !(termX + terminalWidthPixel + guiWinLeftRightMargin > vgaWidth) &&
  !(termY - guiWinTitleBarHeight < 0) &&
  !(termY + terminalHeightPixel + guiWinDownMargin > vgaHeight)

end GuiWindow

namespace Kernel

variable (k : Kernel)

/-- `check_inside_window`. -/
def checkInsideWindow (x y : ℤ) (win : Option TermId) : CursorPosition :=
  match win with
  | none => .notInWindow
  | some t => (k.term (some t)).win.checkInside x y

/-- `gui_new_window`; `none` is -1. -/
def guiNewWindow (win : TermId) : Option Kernel :=
  if (k.gui.findWindowIdx (some win)).isSome then none
  else
    match k.gui.findWindowIdx none with
    | none => none
    | some idx =>
      some { (k.modifyTerm (some win) fun t => { t with
                win := { termX := 50 + 50 * idx, termY := 50 + 50 * idx, terminalId := win } }) with
              gui := k.gui.put idx win }

/-- `gui_destroy_window`. -/
def guiDestroyWindow (win : TermId) : Kernel := { k with gui := k.gui.destroyWindow win }

/-- `gui_handle_mouse_move`: 0, or -1 if the window would leave the screen. -/
def guiHandleMouseMove (deltaX deltaY : ℤ) : Kernel × ℤ :=
  if !k.gui.mousePressedOnTitle then (k, 0)
  else
    match k.gui.windowStack.headD none with
    | none => (k, 0)
    | some t =>
      let win := (k.term (some t)).win
      if GuiWindow.isValidPosition (win.termX + deltaX) (win.termY + deltaY) then
        (k.modifyTerm (some t) fun term => { term with
          win := { win with termX := win.termX + deltaX, termY := win.termY + deltaY } }, 0)
      else (k, -1)

/-- `gui_render`, as far as the page directory is concerned. -/
def guiRender : Kernel :=
  { k with vidmem := (k.vidmem.terminalVidmemSet none).terminalVidmemSet k.runningTerm }

end Kernel

end AuroraOS
