/-
# Terminals

The parts of `terminal.c` that work on one terminal: what `handle_scan_code` does
to the keyboard state and to the terminal in focus, the two halves of
`system_terminal_read` around its sleep, and the control block of a new terminal.
What these functions do to tasks is in `AuroraOS.Interrupts` and `AuroraOS.System`.
-/
import AuroraOS.Kernel

namespace AuroraOS

/-! ## Scan codes -/

/-- `scan_code_table`; the entries from 0x3A on are 0. -/
def scanCodeTable : List UInt8 :=
  [0, 0, 49, 50, 51, 52, 53, 54, 55, 56, 57, 48, 45, 61, 8, 0, 113, 119, 101, 114, 116, 121, 117,
   105, 111, 112, 91, 93, 10, 0, 97, 115, 100, 102, 103, 104, 106, 107, 108, 59, 39, 96, 0, 92,
   122, 120, 99, 118, 98, 110, 109, 44, 46, 47, 0, 0, 0, 32]

/-- `shift_scan_code_table`. -/
def shiftScanCodeTable : List UInt8 :=
  [0, 0, 33, 64, 35, 36, 37, 94, 38, 42, 40, 41, 95, 43, 8, 0, 81, 87, 69, 82, 84, 89, 85, 73, 79,
   80, 123, 125, 10, 0, 65, 83, 68, 70, 71, 72, 74, 75, 76, 58, 34, 126, 0, 124, 90, 88, 67, 86,
   66, 78, 77, 60, 62, 63, 0, 0, 0, 32]

/-- `caps_shift_scan_code_table`. -/
def capsShiftScanCodeTable : List UInt8 :=
  [0, 0, 33, 64, 35, 36, 37, 94, 38, 42, 40, 41, 95, 43, 8, 0, 113, 119, 101, 114, 116, 121, 117,
   105, 111, 112, 123, 125, 10, 0, 97, 115, 100, 102, 103, 104, 106, 107, 108, 58, 34, 126, 0, 124,
   122, 120, 99, 118, 98, 110, 109, 60, 62, 63, 0, 0, 0, 32]

/-- `caps_scan_code_table`. -/
def capsScanCodeTable : List UInt8 :=
  [0, 0, 49, 50, 51, 52, 53, 54, 55, 56, 57, 48, 45, 61, 8, 0, 81, 87, 69, 82, 84, 89, 85, 73, 79,
   80, 91, 93, 10, 0, 65, 83, 68, 70, 71, 72, 74, 75, 76, 59, 39, 96, 0, 92, 90, 88, 67, 86, 66,
   78, 77, 44, 46, 47, 0, 0, 0, 32]

/-- `CTRL_PRESS`. -/
abbrev ctrlPress : ℕ := 0x1D
/-- `ALT_PRESS`. -/
abbrev altPress : ℕ := 0x38
/-- `LEFT_SHIFT_PRESS`. -/
abbrev leftShiftPress : ℕ := 0x2A
/-- `RIGHT_SHIFT_PRESS`. -/
abbrev rightShiftPress : ℕ := 0x36
/-- `BACKSPACE_PRESS`. -/
abbrev backspacePress : ℕ := 0x0E
/-- `CAPSLOCK_PRESS`. -/
abbrev capslockPress : ℕ := 0x3A
/-- `ENTER_PRESS`. -/
abbrev enterPress : ℕ := 0x1C
/-- `L_PRESSED`. -/
abbrev lPressed : ℕ := 0x26
/-- `C_PRESSED`. -/
abbrev cPressed : ℕ := 0x2E
/-- `F1_PRESS`. -/
abbrev f1Press : ℕ := 0x3B
/-- `SCANCODE_PRESSED`. -/
abbrev scancodePressed : ℕ := 0x80
/-- The byte of a newline. -/
abbrev newline : UInt8 := 10

/-- The keyboard at boot. -/
def Keyboard.released : Keyboard := { keyFlags := fun _ => false, capslockStatus := false }

/-- `key_flags[code] = pressed`. -/
def Keyboard.setKey (kb : Keyboard) (code : ℕ) (pressed : Bool) : Keyboard :=
  { kb with keyFlags := Function.update kb.keyFlags code pressed }

/-- The character that `handle_scan_code` looks up for a scan code. -/
def Keyboard.character (kb : Keyboard) (code : ℕ) : UInt8 :=
  let shift := kb.keyFlags leftShiftPress || kb.keyFlags rightShiftPress
  if !kb.capslockStatus && shift then shiftScanCodeTable.getD code 0
  else if !kb.capslockStatus && !shift then scanCodeTable.getD code 0
  else if kb.capslockStatus && shift then capsShiftScanCodeTable.getD code 0
  else capsScanCodeTable.getD code 0

/-- The terminal that Alt+F1..F3 selects. -/
def Keyboard.altTarget (kb : Keyboard) : Option TermId :=
  if kb.keyFlags altPress then
    if kb.keyFlags f1Press then some 0
    else if kb.keyFlags (f1Press + 1) then some 1
    else if kb.keyFlags (f1Press + 2) then some 2
    else none
  else none

/-- What a pressed key asks of the tasks. -/
structure KeyEffect where
  /-- Wake up `focus_task()`. -/
  wake : Bool := false
  /-- Send `SIGNAL_INTERRUPT`. -/
  interrupt : Bool := false
  /-- `task_change_focus` to this terminal, before the wake-up. -/
  focus : Option TermId := none
  deriving DecidableEq

namespace Terminal

/-- A terminal slot at boot. -/
def unused : Terminal where
  valid := false
  keyBuf := fun _ => 0
  keyBufCnt := 0
  userAskLen := 0
  win := { termX := 0, termY := 0, terminalId := 0 }

/-- The characters waiting in `key_buf`. -/
def queue (t : Terminal) : List UInt8 := (List.range t.keyBufCnt).map t.keyBuf

/-- The backspace and character branches of `handle_scan_code`. -/
def typeKey (t : Terminal) (kb : Keyboard) (code : ℕ) : Terminal :=
  if kb.keyFlags backspacePress then
    if 0 < t.keyBufCnt then { t with keyBufCnt := t.keyBufCnt - 1 } else t
  else
    let character := kb.character code
    if character ≠ 0 ∧ t.keyBufCnt < keyboardBufSize - 1 then
      { t with
        keyBuf := Function.update t.keyBuf t.keyBufCnt character
        keyBufCnt := t.keyBufCnt + 1 }
    else t

/-- `handle_scan_code` on a pressed key, behind the update of `key_flags`, as far
as the keyboard and the terminal in focus are concerned. -/
def pressKey (t : Terminal) (kb : Keyboard) (code : ℕ) :
    Except Fault (Keyboard × Terminal × KeyEffect) :=
  if t.userAskLen ≠ 0 ∧ code = enterPress then
    if t.keyBufCnt < keyboardBufSize then
      .ok (kb, { t with
        keyBuf := Function.update t.keyBuf t.keyBufCnt newline
        keyBufCnt := t.keyBufCnt + 1 }, { wake := true })
    else .error .keyBufBounds
  else if t.userAskLen = 0 ∧ code = enterPress then
    .ok (kb, { t with keyBufCnt := 0 }, {})
  else if code = capslockPress then
    .ok ({ kb with capslockStatus := !kb.capslockStatus }, t, {})
  else if kb.keyFlags ctrlPress ∧ kb.keyFlags cPressed then
    .ok (kb, t, { interrupt := true })
  else if kb.keyFlags ctrlPress ∧ kb.keyFlags lPressed then
    -- the last typed line, `key_buf[0 .. key_buf_cnt)`, is printed again
    if t.keyBufCnt ≤ keyboardBufSize then .ok (kb, t, {}) else .error .keyBufBounds
  else
    let t := t.typeKey kb code
    .ok (kb, t, {
      wake := decide (0 < t.userAskLen ∧ t.userAskLen ≤ t.keyBufCnt)
      focus := kb.altTarget })

/-! ## Reading -/

/-- The scan loop of `system_terminal_read`, with `n` characters left to look at
from index `i` on: where it stops, and whether at a newline. -/
def scanKeyBuf (buf : ℕ → UInt8) (nbytes : ℤ) : ℕ → ℕ → ℕ × Bool
  | 0, i => (i, false)
  | n + 1, i =>
    if (i : ℤ) < nbytes then
      if buf i = newline then (i, true) else scanKeyBuf buf nbytes n (i + 1)
    else (i, false)

/-- The result of the scan loop on this terminal. -/
def scan (t : Terminal) (nbytes : ℤ) : ℕ × Bool := scanKeyBuf t.keyBuf nbytes t.keyBufCnt 0

/-- `nbytes` after the limit to `KEYBOARD_BUF_SIZE`. -/
def limitBytes (nbytes : ℤ) : ℤ := if nbytes > keyboardBufSize then keyboardBufSize else nbytes

/-- `system_terminal_read` up to the decision to sleep, with `nbytes` limited
already: `some i` if the read goes on with `i` characters at once. -/
def readBegin (t : Terminal) (nbytes : ℤ) : Terminal × Option ℕ :=
  let t := { t with userAskLen := (nbytes % 256).toNat }
  let (i, atNewline) := t.scan nbytes
  if atNewline ∨ (i : ℤ) = nbytes then (t, some i) else (t, none)

/-- The loop that moves the remaining characters to the front. -/
def shiftKeyBuf (toDelete : ℕ) : ℕ → ℕ → (ℕ → UInt8) → Except Fault (ℕ → UInt8)
  | 0, _, buf => .ok buf
  | n + 1, j, buf =>
    if j < keyboardBufSize then
      shiftKeyBuf toDelete n (j + 1) (Function.update buf (j - toDelete) (buf j))
    else .error .keyBufBounds

/-- The end of `system_terminal_read`, once `i` is known: the characters that go
to the user, and the terminal without them. -/
def readEnd (t : Terminal) (i : ℕ) : Except Fault (List UInt8 × Terminal) :=
  if i < keyboardBufSize then do
    let toDelete := i + (if t.keyBuf i = newline then 1 else 0)
    let buf ← shiftKeyBuf toDelete (t.keyBufCnt - toDelete) toDelete t.keyBuf
    .ok ((List.range i).map t.keyBuf, { t with
      userAskLen := 0
      keyBuf := buf
      keyBufCnt := (t.keyBufCnt + 256 - toDelete) % 256 })
  else .error .keyBufBounds

/-! ## Allocation -/

/-- The fields that `terminal_allocate` sets; `user_ask_len` is not among them. -/
def allocate (t : Terminal) : Terminal :=
  { t with valid := true, keyBuf := fun i => if i < keyboardBufSize then 0 else t.keyBuf i
           keyBufCnt := 0 }

end Terminal

end AuroraOS
