/-
# Text output of the terminals

`putc`, `clear` and `reset_cursor` of `lib.c`, and the switch of the running terminal.

All terminals share one pair of cursor globals and one linear page, 0xBF000, for the text on
the screen.  `terminal_set_running` saves and loads the cursor and lets entry 0 of the page
directory point to the page table of the terminal; the page tables map 0xBF000 to different
physical pages.  `Display` is this machinery down to the bytes of physical memory, and
`Screen` is what it is for: every terminal has characters and a cursor of its own.
-/
import AuroraOS.Sched
import AuroraOS.Machine

namespace AuroraOS

open Machine

/-! ## The code -/

/-- `TERMINAL_TEXT_COLS`. -/
abbrev terminalTextCols : ℕ := 80
/-- `TERMINAL_TEXT_ROWS`. -/
abbrev terminalTextRows : ℕ := 30

/-- The physical page that entry 0xBF of a page table points to. -/
def PageTable.textPage : PageTable → ℕ
  | .kernelPageTable0 => 0xBF000
  | .userVideoMemory t => 7 * 0x400000 + t.val * 4096
  | .kernelVideoMemory t => 7 * 0x400000 + t.val * 4096

/-- An access to `screen_char[index]` outside of the page that is mapped there. -/
structure PageFault where
  index : ℤ
  deriving DecidableEq

/-- Physical memory and the variables that text output and `terminal_set_running` use:
`screen_x`, `screen_y`, the fields of the same names in every `terminal_t`, and
`running_term_`. -/
@[ext] structure Display where
  memory : ℕ → UInt8
  vidmem : Vidmem
  screenX : ℤ
  screenY : ℤ
  savedX : Option TermId → ℤ
  savedY : Option TermId → ℤ
  runningTerm : Option TermId

namespace Display

/-- The physical page behind the linear page 0xBF000. -/
def textPage (d : Display) : Option ℕ :=
  if d.vidmem.vramEntry.present then d.vidmem.vramEntry.baseAddress.map PageTable.textPage else none

/-- The physical address of `screen_char[i]`. -/
def address (d : Display) (i : ℤ) : Except PageFault ℕ :=
  if 0 ≤ i ∧ i < 4096 then
    d.textPage.elim (.error ⟨i⟩) fun page => .ok (page + i.toNat)
  else .error ⟨i⟩

/-- `screen_char[i] = c`. -/
def setChar (d : Display) (i : ℤ) (c : UInt8) : Except PageFault Display := do
  let a ← d.address i
  .ok { d with memory := Function.update d.memory a c }

/-- `screen_char[i] = screen_char[j]`. -/
def copyChar (d : Display) (i j : ℤ) : Except PageFault Display := do
  let a ← d.address j
  d.setChar i (d.memory a)

/-- A loop that stores `c` to `n` characters from index `i` on. -/
def fill (c : UInt8) : ℕ → ℤ → Display → Except PageFault Display
  | 0, _, d => .ok d
  | n + 1, i, d => do
    let d ← d.setChar i c
    fill c n (i + 1) d

/-- The inner loop of `scroll_up`: `n` characters of row `y` from column `x` on. -/
def copyRow (y : ℤ) : ℕ → ℤ → Display → Except PageFault Display
  | 0, _, d => .ok d
  | n + 1, x, d => do
    let d ← d.copyChar ((y - 1) * terminalTextCols + x) (y * terminalTextCols + x)
    copyRow y n (x + 1) d

/-- The outer loop of `scroll_up`: `n` rows from row `y` on. -/
def copyRows : ℕ → ℤ → Display → Except PageFault Display
  | 0, _, d => .ok d
  | n + 1, y, d => do
    let d ← copyRow y terminalTextCols 0 d
    copyRows n (y + 1) d

/-- The outer loop of `clear`: `n` rows from row `y` on. -/
def clearRows : ℕ → ℤ → Display → Except PageFault Display
  | 0, _, d => .ok d
  | n + 1, y, d => do
    let d ← fill 32 terminalTextCols (y * terminalTextCols) d
    clearRows n (y + 1) d

/-- `scroll_up`. -/
def scrollUp (d : Display) : Except PageFault Display := do
  let d ← copyRows (terminalTextRows - 1) 1 d
  let d ← fill 0 terminalTextCols (((terminalTextRows : ℤ) - 1) * terminalTextCols) d
  .ok { d with screenY := (terminalTextRows : ℤ) - 1, screenX := 0 }

/-- `if (TERMINAL_TEXT_ROWS == screen_y) scroll_up();` -/
def scrollIfFull (d : Display) : Except PageFault Display :=
  if d.screenY = (terminalTextRows : ℤ) then d.scrollUp else .ok d

/-- The newline branch of `putc`: empty the rest of the row, and go to the next one. -/
def putNewline (d : Display) : Except PageFault Display := do
  let d ←
    if d.screenX < (terminalTextCols : ℤ) - 1 then
      fill 0 ((terminalTextCols : ℤ) - d.screenX).toNat
        (d.screenY * terminalTextCols + d.screenX) d
    else .ok d
  scrollIfFull { d with screenX := 0, screenY := d.screenY + 1 }

/-- The cursor of the backspace branch of `putc`. -/
def stepBack (d : Display) : Display :=
  if d.screenX = 0 then { d with screenX := (terminalTextCols : ℤ) - 1, screenY := d.screenY - 1 }
  else { d with screenX := d.screenX - 1 }

/-- The cursor behind a normal character. -/
def stepOn (d : Display) : Except PageFault Display :=
  if d.screenX + 1 = (terminalTextCols : ℤ) then
    scrollIfFull
      { d with screenX := (d.screenX + 1) % terminalTextCols, screenY := d.screenY + 1 }
  else .ok { d with screenX := d.screenX + 1 }

/-- `screen_char[screen_y * TERMINAL_TEXT_COLS + screen_x] = c`. -/
def setCursorChar (d : Display) (c : UInt8) : Except PageFault Display :=
  d.setChar (d.screenY * terminalTextCols + d.screenX) c

/-- `putc`. -/
def putc (d : Display) (c : UInt8) : Except PageFault Display :=
  if c = 10 ∨ c = 13 then d.putNewline
  else if c = 8 then
    if d.screenX = 0 ∧ d.screenY = 0 then .ok d else d.stepBack.setCursorChar 0
  else do
    let d ← d.setCursorChar c
    d.stepOn

/-- `clear`; the cursor stays. -/
def clear (d : Display) : Except PageFault Display := clearRows terminalTextRows 0 d

/-- `reset_cursor`. -/
def resetCursor (d : Display) : Display := { d with screenX := 0, screenY := 0 }

/-- `terminal_set_running`. -/
def terminalSetRunning (d : Display) (t : Option TermId) : Display :=
  if d.runningTerm = t then d
  else
    let savedX := Function.update d.savedX d.runningTerm d.screenX
    let savedY := Function.update d.savedY d.runningTerm d.screenY
    { d with
      savedX := savedX
      savedY := savedY
      vidmem := d.vidmem.terminalVidmemSet t
      screenX := savedX t
      screenY := savedY t
      runningTerm := t }

end Display

/-- A call that writes to the screen. -/
inductive Output where
  | putc (c : UInt8)
  | clear
  | resetCursor
  deriving DecidableEq

/-- A call of text output, or a switch of the running terminal. -/
inductive ScreenCall where
  | setRunning (t : Option TermId)
  | output (o : Output)
  deriving DecidableEq

namespace Display

/-- One output call. -/
def output (d : Display) : Output → Except PageFault Display
  | .putc c => d.putc c
  | .clear => d.clear
  | .resetCursor => .ok d.resetCursor

/-- One call. -/
def step (d : Display) : ScreenCall → Except PageFault Display
  | .setRunning t => .ok (d.terminalSetRunning t)
  | .output o => d.output o

end Display

/-! ## Screens -/

/-- The text of one terminal and its cursor. -/
@[ext] structure Screen where
  chars : Fin 2400 → UInt8
  x : ℤ
  y : ℤ

namespace Screen

/-- The cursor is on the screen. -/
def InRange (s : Screen) : Prop := 0 ≤ s.x ∧ s.x < 80 ∧ 0 ≤ s.y ∧ s.y < 30

/-- The same text with another cursor. -/
def moveTo (s : Screen) (x y : ℤ) : Screen := { s with x := x, y := y }

/-- Write `c` to the `n` characters from index `i` on. -/
def fill (s : Screen) (c : UInt8) (n : ℕ) (i : ℤ) : Screen :=
  { s with chars := fun j => if i ≤ j.val ∧ (j.val : ℤ) < i + n then c else s.chars j }

/-- The `n` characters from index `i` on are replaced by those one row below. -/
def raise (s : Screen) (n : ℕ) (i : ℤ) : Screen :=
  { s with chars := fun j =>
      if h : j.val + 80 < 2400 then
        if i ≤ j.val ∧ (j.val : ℤ) < i + n then s.chars ⟨j.val + 80, h⟩ else s.chars j
      else s.chars j }

/-- All rows move up by one; the last one becomes empty, and the cursor goes to its start. -/
def scrollUp (s : Screen) : Screen := ((s.raise 2320 0).fill 0 80 2320).moveTo 0 29

/-- The cursor goes to the start of the next row. -/
def nextRow (s : Screen) : Screen :=
  if s.y + 1 = 30 then s.scrollUp else s.moveTo 0 (s.y + 1)

/-- Write `c` where the cursor is. -/
def put (s : Screen) (c : UInt8) : Screen := s.fill c 1 (s.y * 80 + s.x)

/-- The cursor goes one character on. -/
def advance (s : Screen) : Screen := if s.x + 1 = 80 then s.nextRow else s.moveTo (s.x + 1) s.y

/-- The cursor goes one character back. -/
def retreat (s : Screen) : Screen :=
  if s.x = 0 then s.moveTo 79 (s.y - 1) else s.moveTo (s.x - 1) s.y

/-- The rest of the row becomes empty, unless the cursor is in the last column. -/
def clearRow (s : Screen) : Screen :=
  if s.x < 79 then s.fill 0 (80 - s.x).toNat (s.y * 80 + s.x) else s

/-- One character. -/
def putc (s : Screen) (c : UInt8) : Screen :=
  if c = 10 ∨ c = 13 then s.clearRow.nextRow
  else if c = 8 then if s.x = 0 ∧ s.y = 0 then s else s.retreat.put 0
  else (s.put c).advance

/-- One output call. -/
def output (s : Screen) : Output → Screen
  | .putc c => s.putc c
  | .clear => s.fill 32 2400 0
  | .resetCursor => s.moveTo 0 0

variable {s : Screen}

/-! ### The cursor stays on the screen -/

theorem inRange_moveTo {x y : ℤ} (hx : 0 ≤ x ∧ x < 80) (hy : 0 ≤ y ∧ y < 30) :
    (s.moveTo x y).InRange := ⟨hx.1, hx.2, hy.1, hy.2⟩

theorem inRange_fill (h : s.InRange) (c : UInt8) (n : ℕ) (i : ℤ) : (s.fill c n i).InRange := h

theorem inRange_nextRow (h : s.InRange) : s.nextRow.InRange := by
  obtain ⟨-, -, hy, hy'⟩ := h
  rw [nextRow]
  split_ifs with hfull
  · exact inRange_moveTo (by omega) (by omega)
  · exact inRange_moveTo (by omega) (by omega)

theorem inRange_advance (h : s.InRange) : s.advance.InRange := by
  rw [advance]
  split_ifs with hend
  · exact inRange_nextRow h
  · obtain ⟨hx, hx', hy⟩ := h
    exact inRange_moveTo (by omega) hy

theorem inRange_retreat (h : s.InRange) (h0 : ¬(s.x = 0 ∧ s.y = 0)) : s.retreat.InRange := by
  obtain ⟨hx, hx', hy, hy'⟩ := h
  rw [retreat]
  split_ifs with hstart
  · exact inRange_moveTo (by omega) (by omega)
  · exact inRange_moveTo (by omega) (by omega)

theorem inRange_clearRow (h : s.InRange) : s.clearRow.InRange := by
  rw [clearRow]
  split_ifs
  · exact inRange_fill h _ _ _
  · exact h

/-- The cursor stays on the screen. -/
theorem inRange_output (h : s.InRange) (o : Output) : (s.output o).InRange := by
  cases o with
  | putc c =>
    rw [output, putc]
    split_ifs with hn hb h0
    · exact inRange_nextRow (inRange_clearRow h)
    · exact h
    · exact inRange_fill (inRange_retreat h h0) _ _ _
    · exact inRange_advance (inRange_fill h _ _ _)
  | clear => exact inRange_fill h _ _ _
  | resetCursor => exact inRange_moveTo (by omega) (by omega)

/-! ### Loops, one round after the other -/

theorem fill_fill (s : Screen) (c : UInt8) (n m : ℕ) (i : ℤ) :
    (s.fill c n i).fill c m (i + n) = s.fill c (n + m) i := by
  simp only [fill, mk.injEq, and_true]
  funext j
  push_cast
  split_ifs <;> first | rfl | omega

theorem fill_zero (s : Screen) (c : UInt8) (i : ℤ) : s.fill c 0 i = s := by
  apply Screen.ext
  · funext j
    exact if_neg (by omega)
  · rfl
  · rfl

theorem raise_raise (s : Screen) (n m : ℕ) (i : ℤ) :
    (s.raise n i).raise m (i + n) = s.raise (n + m) i := by
  simp only [raise, mk.injEq, and_true]
  funext j
  push_cast
  split_ifs <;> first | rfl | omega

theorem raise_zero (s : Screen) (i : ℤ) : s.raise 0 i = s := by
  apply Screen.ext
  · funext j
    simp only [raise]
    split_ifs <;> first | rfl | omega
  · rfl
  · rfl

end Screen

/-! ## What a display shows -/

/-- The page table through which a terminal sees its text. -/
def videoTable : Option TermId → PageTable
  | none => .kernelPageTable0
  | some t => .kernelVideoMemory t

/-- The physical page with the text of a terminal. -/
def terminalPage (t : Option TermId) : ℕ := (videoTable t).textPage

/-- Different terminals have their text in different physical pages. -/
theorem terminalPage_disjoint {t u : Option TermId} (h : t ≠ u) :
    terminalPage t + 4096 ≤ terminalPage u ∨ terminalPage u + 4096 ≤ terminalPage t := by
  rcases t with _ | t <;> rcases u with _ | u
  · exact absurd rfl h
  · simp only [terminalPage, videoTable, PageTable.textPage]
    omega
  · simp only [terminalPage, videoTable, PageTable.textPage]
    omega
  · have hval : t.val ≠ u.val := fun he => h (congrArg some (Fin.ext he))
    simp only [terminalPage, videoTable, PageTable.textPage]
    omega

namespace Display

/-- The text buffer and the cursor of a terminal. -/
def screen (d : Display) (t : Option TermId) : Screen where
  chars := fun i => d.memory (terminalPage t + i.val)
  x := if d.runningTerm = t then d.screenX else d.savedX t
  y := if d.runningTerm = t then d.screenY else d.savedY t

/-- The display with another screen for the running terminal. -/
def showing (d : Display) (s : Screen) : Display :=
  { d with
    memory := fun a =>
      if h : terminalPage d.runningTerm ≤ a ∧ a - terminalPage d.runningTerm < 2400 then
        s.chars ⟨a - terminalPage d.runningTerm, h.2⟩
      else d.memory a
    screenX := s.x
    screenY := s.y }

/-- Entry 0 of the page directory points to the page table of the running terminal. -/
def Mapped (d : Display) : Prop :=
  d.vidmem.vramEntry = setPDE4kB (videoTable d.runningTerm) true false true

variable {d : Display} {s : Screen}

theorem showing_screen (d : Display) : d.showing (d.screen d.runningTerm) = d := by
  have hmem : (d.showing (d.screen d.runningTerm)).memory = d.memory := by
    funext a
    simp only [showing, screen]
    split_ifs with ha
    · rw [Nat.add_sub_cancel' ha.1]
    · rfl
  have hx : (d.screen d.runningTerm).x = d.screenX := if_pos rfl
  have hy : (d.screen d.runningTerm).y = d.screenY := if_pos rfl
  show { d with memory := _, screenX := _, screenY := _ } = d
  rw [hx, hy]
  exact congrArg (fun m => { d with memory := m }) hmem

/-- The running terminal shows its screen. -/
theorem screen_showing (d : Display) (s : Screen) : (d.showing s).screen d.runningTerm = s := by
  apply Screen.ext
  · funext i
    simp only [screen, showing]
    rw [dif_pos ⟨by omega, by omega⟩]
    congr 1
    apply Fin.ext
    show terminalPage d.runningTerm + i.val - terminalPage d.runningTerm = i.val
    omega
  · exact if_pos rfl
  · exact if_pos rfl

/-- **The screens of the other terminals are untouched.** -/
theorem screen_showing_of_ne {t : Option TermId} (h : d.runningTerm ≠ t) (s : Screen) :
    (d.showing s).screen t = d.screen t := by
  apply Screen.ext
  · funext i
    have hdisj := terminalPage_disjoint h
    have hi := i.isLt
    simp only [screen, showing]
    exact dif_neg (by omega)
  · exact (if_neg h).trans (if_neg h).symm
  · exact (if_neg h).trans (if_neg h).symm

/-! ### Every function is the operation on the screen -/

section Refinement

variable (hm : d.Mapped)
include hm

theorem address_showing {i : ℤ} (h0 : 0 ≤ i) (hi : i < 2400) :
    (d.showing s).address i = .ok (terminalPage d.runningTerm + i.toNat) := by
  have hpage : (d.showing s).textPage = some (terminalPage d.runningTerm) := by
    have hv : (d.showing s).vidmem.vramEntry =
      setPDE4kB (videoTable d.runningTerm) true false true :=
      hm
    rw [textPage, hv]
    rfl
  rw [address, if_pos ⟨h0, by omega⟩, hpage]
  rfl

theorem setChar_showing {i : ℤ} (h0 : 0 ≤ i) (hi : i < 2400) (c : UInt8) :
    (d.showing s).setChar i c = .ok (d.showing (s.fill c 1 i)) := by
  rw [setChar, address_showing hm h0 hi, ok_bind]
  apply congrArg Except.ok
  apply Display.ext
  · funext a
    simp only [Function.update_apply, showing, Screen.fill]
    split_ifs <;> first | rfl | omega
  all_goals rfl

theorem copyChar_showing {i : ℤ} (h0 : 0 ≤ i) (hi : i + 80 < 2400) :
    (d.showing s).copyChar i (i + 80) = .ok (d.showing (s.raise 1 i)) := by
  have hval : (d.showing s).memory (terminalPage d.runningTerm + (i + 80).toNat) =
      s.chars ⟨(i + 80).toNat, by omega⟩ := by
    have h := congrArg (fun s => s.chars ⟨(i + 80).toNat, by omega⟩) (screen_showing d s)
    exact h
  rw [copyChar, address_showing hm (by omega) hi, ok_bind, hval,
    setChar_showing hm h0 (by omega)]
  apply congrArg fun s => Except.ok (d.showing s)
  simp only [Screen.fill, Screen.raise, Screen.mk.injEq, and_true]
  funext j
  split_ifs with h1 h2
  · congr 1
    apply Fin.ext
    show (i + 80).toNat = j.val + 80
    omega
  · omega
  · rfl
  · rfl

theorem fill_showing (c : UInt8) (n : ℕ) : ∀ (s : Screen) {i : ℤ}, 0 ≤ i → i + n ≤ 2400 →
    fill c n i (d.showing s) = .ok (d.showing (s.fill c n i)) := by
  induction n with
  | zero =>
    intro s i _ _
    rw [Screen.fill_zero]
    rfl
  | succ n ih =>
    intro s i h0 hn
    push_cast at hn
    rw [fill, setChar_showing hm h0 (by omega), ok_bind, ih _ (by omega) (by omega), Nat.add_comm n,
      ← Screen.fill_fill]
    rfl

theorem copyRow_showing (y : ℤ) (hy : 1 ≤ y) (hy' : y < 30) (n : ℕ) :
    ∀ (s : Screen) {x : ℤ}, 0 ≤ x → x + n ≤ 80 →
      copyRow y n x (d.showing s) = .ok (d.showing (s.raise n ((y - 1) * 80 + x))) := by
  induction n with
  | zero =>
    intro s x _ _
    rw [Screen.raise_zero]
    rfl
  | succ n ih =>
    intro s x h0 hn
    push_cast at hn
    have hrow : y * (terminalTextCols : ℤ) + x = ((y - 1) * (terminalTextCols : ℤ) + x) + 80 := by
      push_cast
      ring
    rw [copyRow, hrow, copyChar_showing hm (by push_cast; omega) (by push_cast; omega), ok_bind,
      ih _ (by omega) (by omega), Nat.add_comm n, ← Screen.raise_raise, ← add_assoc]
    rfl

theorem copyRows_showing (n : ℕ) : ∀ (s : Screen) {y : ℤ}, 1 ≤ y → y + n ≤ 30 →
    copyRows n y (d.showing s) = .ok (d.showing (s.raise (80 * n) ((y - 1) * 80))) := by
  induction n with
  | zero =>
    intro s y _ _
    rw [Nat.mul_zero, Screen.raise_zero]
    rfl
  | succ n ih =>
    intro s y hy hn
    push_cast at hn
    have hnext : (y + 1 - 1) * 80 = (y - 1) * 80 + (80 : ℕ) := by
      push_cast
      ring
    rw [copyRows, copyRow_showing hm y hy (by omega) _ _ le_rfl (by decide), ok_bind, add_zero,
      ih _ (by omega) (by omega), Nat.mul_succ, Nat.add_comm (80 * n), ← Screen.raise_raise, hnext]

theorem clearRows_showing (n : ℕ) : ∀ (s : Screen) {y : ℤ}, 0 ≤ y → y + n ≤ 30 →
    clearRows n y (d.showing s) = .ok (d.showing (s.fill 32 (80 * n) (y * 80))) := by
  induction n with
  | zero =>
    intro s y _ _
    rw [Nat.mul_zero, Screen.fill_zero]
    rfl
  | succ n ih =>
    intro s y hy hn
    push_cast at hn
    have hnext : (y + 1) * 80 = y * 80 + (80 : ℕ) := by
      push_cast
      ring
    rw [clearRows, fill_showing hm _ _ _ (by push_cast; omega) (by push_cast; omega), ok_bind,
      ih _ (by omega) (by omega), Nat.mul_succ, Nat.add_comm (80 * n), ← Screen.fill_fill, hnext]
    rfl

/-- `scroll_up` moves all rows up. -/
theorem scrollUp_showing (s : Screen) : (d.showing s).scrollUp = .ok (d.showing s.scrollUp) := by
  rw [scrollUp, copyRows_showing hm _ _ le_rfl (by decide), ok_bind,
    fill_showing hm _ _ _ (by decide) (by decide), ok_bind]
  rfl

theorem scrollIfFull_showing (s : Screen) :
    scrollIfFull (d.showing (s.moveTo 0 (s.y + 1))) = .ok (d.showing s.nextRow) := by
  rw [scrollIfFull, Screen.nextRow]
  by_cases hfull : s.y + 1 = 30
  · rw [if_pos hfull, if_pos (by exact hfull), scrollUp_showing hm]
    rfl
  · rw [if_neg hfull, if_neg (by exact hfull)]

theorem putNewline_showing (hs : s.InRange) :
    (d.showing s).putNewline = .ok (d.showing s.clearRow.nextRow) := by
  obtain ⟨hx, hx', hy, hy'⟩ := hs
  rw [← scrollIfFull_showing hm]
  by_cases hcol : s.x < 79
  · rw [putNewline, if_pos (by exact hcol), Screen.clearRow, if_pos hcol]
    have hfill := fill_showing hm 0 (80 - s.x).toNat s (i := s.y * 80 + s.x) (by omega) (by omega)
    exact (congrArg (· >>= _) hfill).trans rfl
  · rw [putNewline, if_neg (by exact hcol), Screen.clearRow, if_neg hcol]
    rfl

theorem setCursorChar_showing (hs : s.InRange) (c : UInt8) :
    (d.showing s).setCursorChar c = .ok (d.showing (s.put c)) := by
  obtain ⟨hx, hx', hy, hy'⟩ := hs
  exact setChar_showing hm (i := s.y * 80 + s.x) (by omega) (by omega) c

theorem stepOn_showing (s : Screen) : (d.showing s).stepOn = .ok (d.showing s.advance) := by
  rw [stepOn, Screen.advance]
  by_cases hend : s.x + 1 = 80
  · rw [if_pos hend, if_pos (by exact hend), ← scrollIfFull_showing hm, Screen.moveTo]
    have hx : (s.x + 1) % ((terminalTextCols : ℕ) : ℤ) = 0 := by
      rw [hend]
      rfl
    show scrollIfFull { d.showing s with screenX := (s.x + 1) % _, screenY := _ } = _
    rw [hx]
    rfl
  · rw [if_neg hend, if_neg (by exact hend)]
    rfl

/-- `putc` writes the character to the screen of the running terminal. -/
theorem putc_showing (hs : s.InRange) (c : UInt8) :
    (d.showing s).putc c = .ok (d.showing (s.putc c)) := by
  rw [putc, Screen.putc]
  by_cases hn : c = 10 ∨ c = 13
  · rw [if_pos hn, if_pos hn]
    exact putNewline_showing hm hs
  rw [if_neg hn, if_neg hn]
  by_cases hb : c = 8
  · rw [if_pos hb, if_pos hb]
    by_cases h0 : s.x = 0 ∧ s.y = 0
    · rw [if_pos h0, if_pos (by exact h0)]
    · rw [if_neg h0, if_neg (by exact h0)]
      have hback : (d.showing s).stepBack = d.showing s.retreat := by
        by_cases hx : s.x = 0
        · rw [stepBack, Screen.retreat, if_pos hx, if_pos (by exact hx)]
          rfl
        · rw [stepBack, Screen.retreat, if_neg hx, if_neg (by exact hx)]
          rfl
      rw [hback, setCursorChar_showing hm (Screen.inRange_retreat hs h0)]
  · rw [if_neg hb, if_neg hb, setCursorChar_showing hm hs, ok_bind, stepOn_showing hm]

/-- **Every output call is the operation on the screen of the running terminal.** -/
theorem output_showing (hs : s.InRange) (o : Output) :
    (d.showing s).output o = .ok (d.showing (s.output o)) := by
  cases o with
  | putc c => exact putc_showing hm hs c
  | clear => exact clearRows_showing hm 30 s le_rfl le_rfl
  | resetCursor => rfl

end Refinement

/-! ## Runs -/

/-- What holds of a display at any time: the mapping is that of the running terminal, and
all cursors are on the screen. -/
structure WellFormed (d : Display) : Prop where
  mapped : d.Mapped
  inRange : ∀ t, (d.screen t).InRange

/-- The display at boot, with the video memory of some terminals opened. -/
def boot (memory : ℕ → UInt8) (opened : TermId → Bool) : Display where
  memory := memory
  vidmem :=
    { terminalOpened := opened
      vramEntry := setPDE4kB .kernelPageTable0 true false true
      vidmapEntry := clearPDE4kB }
  screenX := 0
  screenY := 0
  savedX := fun _ => 0
  savedY := fun _ => 0
  runningTerm := none

theorem boot_wellFormed (memory : ℕ → UInt8) (opened : TermId → Bool) :
    (boot memory opened).WellFormed := by
  refine ⟨rfl, fun t => ?_⟩
  have hx : ((boot memory opened).screen t).x = 0 := ite_self 0
  have hy : ((boot memory opened).screen t).y = 0 := ite_self 0
  unfold Screen.InRange
  omega

/-- An output call: the running terminal shows the operation on its screen, and nothing
else has changed. -/
theorem output_eq (h : d.WellFormed) (o : Output) :
    d.output o = .ok (d.showing ((d.screen d.runningTerm).output o)) := by
  have hout := output_showing h.mapped (h.inRange d.runningTerm) o
  rwa [showing_screen] at hout

/-- **A switch changes no screen.** -/
theorem screen_terminalSetRunning (d : Display) (t u : Option TermId) :
    (d.terminalSetRunning t).screen u = d.screen u := by
  by_cases hsame : d.runningTerm = t
  · rw [terminalSetRunning, if_pos hsame]
  rw [terminalSetRunning, if_neg hsame]
  have hcursor : ∀ (saved : Option TermId → ℤ) (now : ℤ),
      (if t = u then Function.update saved d.runningTerm now t
        else Function.update saved d.runningTerm now u) =
      if d.runningTerm = u then now else saved u := by
    intro saved now
    have hif : (if t = u then Function.update saved d.runningTerm now t
        else Function.update saved d.runningTerm now u) =
        Function.update saved d.runningTerm now u := by
      split_ifs with htu
      · rw [htu]
      · rfl
    rw [hif, Function.update_apply]
    exact if_congr eq_comm rfl rfl
  apply Screen.ext
  · rfl
  · exact hcursor d.savedX d.screenX
  · exact hcursor d.savedY d.screenY

/-- A terminal that can be switched to. -/
def Opened (d : Display) (t : Option TermId) : Prop :=
  ∀ i, t = some i → d.vidmem.terminalOpened i = true

theorem mapped_terminalSetRunning (h : d.Mapped) {t : Option TermId} (ht : d.Opened t) :
    (d.terminalSetRunning t).Mapped := by
  by_cases hsame : d.runningTerm = t
  · rwa [terminalSetRunning, if_pos hsame]
  rw [terminalSetRunning, if_neg hsame]
  rcases t with _ | i
  · rfl
  · show (d.vidmem.terminalVidmemSet (some i)).vramEntry = _
    rw [Vidmem.terminalVidmemSet, if_pos (ht i rfl)]
    rfl

theorem wellFormed_terminalSetRunning (h : d.WellFormed) {t : Option TermId} (ht : d.Opened t) :
    (d.terminalSetRunning t).WellFormed := by
  refine ⟨mapped_terminalSetRunning h.mapped ht, fun u => ?_⟩
  rw [screen_terminalSetRunning]
  exact h.inRange u

theorem wellFormed_showing (h : d.WellFormed) (hs : s.InRange) : (d.showing s).WellFormed := by
  refine ⟨h.mapped, fun t => ?_⟩
  by_cases ht : d.runningTerm = t
  · rw [← ht, screen_showing]
    exact hs
  · rw [screen_showing_of_ne ht]
    exact h.inRange t

theorem runningTerm_terminalSetRunning (d : Display) (t : Option TermId) :
    (d.terminalSetRunning t).runningTerm = t := by
  rw [terminalSetRunning]
  split_ifs with hsame
  · exact hsame
  · rfl

theorem opened_terminalSetRunning (d : Display) (t : Option TermId) :
    (d.terminalSetRunning t).vidmem.terminalOpened = d.vidmem.terminalOpened := by
  rw [terminalSetRunning]
  split_ifs
  · rfl
  · rcases t with _ | i
    · rfl
    · show (d.vidmem.terminalVidmemSet (some i)).terminalOpened = _
      rw [Vidmem.terminalVidmemSet]
      split_ifs <;> rfl

/-- The output calls that are issued while `t` is the running terminal; at the start the
running terminal is `r`. -/
def issued (t : Option TermId) : Option TermId → List ScreenCall → List Output
  | _, [] => []
  | _, .setRunning u :: calls => issued t u calls
  | r, .output o :: calls => if r = t then o :: issued t r calls else issued t r calls

/-- While a terminal is running, all calls are issued to it. -/
theorem issued_outputs (t : Option TermId) (os : List Output) :
    issued t t (os.map .output) = os := by
  induction os with
  | nil => rfl
  | cons o os ih => rw [List.map_cons, issued, if_pos rfl, ih]

/-- Nothing is issued to a terminal that never runs. -/
theorem issued_eq_nil {t : Option TermId} {calls : List ScreenCall} :
    ∀ {r : Option TermId}, r ≠ t → ScreenCall.setRunning t ∉ calls → issued t r calls = [] := by
  induction calls with
  | nil =>
    intro r _ _
    rfl
  | cons a calls ih =>
    intro r hr hn
    rw [List.mem_cons, not_or] at hn
    cases a with
    | setRunning u => exact ih (fun hu => hn.1 (hu ▸ rfl)) hn.2
    | output o =>
      rw [issued, if_neg hr]
      exact ih hr hn.2

/-- **Runs of calls**: every terminal shows what the calls issued to it make of its
screen. -/
theorem run_screens (calls : List ScreenCall) : ∀ {d : Display}, d.WellFormed →
    (∀ t, ScreenCall.setRunning t ∈ calls → d.Opened t) →
    ∃ d', run step d calls = .ok d' ∧
      ∀ t, d'.screen t = (issued t d.runningTerm calls).foldl Screen.output (d.screen t) := by
  induction calls with
  | nil =>
    intro d _ _
    exact ⟨d, rfl, fun _ => rfl⟩
  | cons a calls ih =>
    intro d h hopen
    cases a with
    | setRunning u =>
      have hu : d.Opened u := hopen u List.mem_cons_self
      obtain ⟨d', hrun, hd'⟩ := ih (wellFormed_terminalSetRunning h hu) (fun t ht i hi => by
        rw [opened_terminalSetRunning]
        exact hopen t (List.mem_cons_of_mem _ ht) i hi)
      refine ⟨d', hrun, fun t => ?_⟩
      rw [hd' t, screen_terminalSetRunning, runningTerm_terminalSetRunning]
      rfl
    | output o =>
      have hout := output_eq h o
      obtain ⟨d', hrun, hd'⟩ := ih
        (wellFormed_showing h (Screen.inRange_output (h.inRange d.runningTerm) o))
        (fun t ht => hopen t (List.mem_cons_of_mem _ ht))
      refine ⟨d', run_cons_ok.mpr ⟨_, hout, hrun⟩, fun t => ?_⟩
      rw [hd' t]
      show (issued t d.runningTerm calls).foldl _ _ = _
      by_cases ht : d.runningTerm = t
      · rw [issued, if_pos ht, List.foldl_cons, ← ht, screen_showing]
      · rw [issued, if_neg ht, screen_showing_of_ne ht]

/-- A call touches at most the screen of the running terminal, and only if it is an output
call. -/
theorem step_other {a : ScreenCall} {d' : Display} (h : d.WellFormed) (hstep : d.step a = .ok d')
    {t : Option TermId} (ht : ∀ o, a = .output o → d.runningTerm ≠ t) :
    d'.screen t = d.screen t := by
  cases a with
  | setRunning u =>
    rw [← Except.ok.inj hstep]
    exact screen_terminalSetRunning d u t
  | output o =>
    rw [← Except.ok.inj ((output_eq h o).symm.trans hstep)]
    exact screen_showing_of_ne (ht o rfl) _

/-- The display stays well formed. -/
theorem wellFormed_step {a : ScreenCall} {d' : Display} (h : d.WellFormed)
    (ha : ∀ t, a = .setRunning t → d.Opened t) (hstep : d.step a = .ok d') :
    d'.WellFormed ∧ d'.vidmem.terminalOpened = d.vidmem.terminalOpened := by
  cases a with
  | setRunning u =>
    rw [← Except.ok.inj hstep]
    exact ⟨wellFormed_terminalSetRunning h (ha u rfl), opened_terminalSetRunning d u⟩
  | output o =>
    rw [← Except.ok.inj ((output_eq h o).symm.trans hstep)]
    exact ⟨wellFormed_showing h (Screen.inRange_output (h.inRange _) o), rfl⟩

theorem wellFormed_run {calls : List ScreenCall} : ∀ {d d' : Display}, d.WellFormed →
    (∀ t, ScreenCall.setRunning t ∈ calls → d.Opened t) → run step d calls = .ok d' →
    d'.WellFormed := by
  induction calls with
  | nil =>
    rintro d _ h _ ⟨⟩
    exact h
  | cons a calls ih =>
    intro d d' h hopen hrun
    obtain ⟨u, hu, hrun⟩ := run_cons_ok.mp hrun
    obtain ⟨hwf, hsame⟩ := wellFormed_step h (fun t ht => hopen t (ht ▸ List.mem_cons_self)) hu
    refine ih hwf (fun t ht i hi => ?_) hrun
    rw [hsame]
    exact hopen t (List.mem_cons_of_mem _ ht) i hi

/-- **Terminal output is isolated.**  After any calls, every terminal has the text and the
cursor that it has when only the output calls issued to it are made while it is running;
and no call changes the text or the cursor of another terminal on the way. -/
theorem output_isolated (h : d.WellFormed) {calls : List ScreenCall}
    (hopen : ∀ t, ScreenCall.setRunning t ∈ calls → d.Opened t) :
    ∃ d', run step d calls = .ok d' ∧
      (∀ t, ∃ alone, run step d
          (.setRunning t :: (issued t d.runningTerm calls).map .output) = .ok alone ∧
        d'.screen t = alone.screen t) ∧
      ∀ as a bs u v, calls = as ++ a :: bs → run step d as = .ok u → step u a = .ok v →
        ∀ t, (∀ o, a = .output o → u.runningTerm ≠ t) → v.screen t = u.screen t := by
  obtain ⟨d', hrun, hd'⟩ := run_screens calls h hopen
  refine ⟨d', hrun, fun t => ?_, ?_⟩
  · have hscreen := screen_terminalSetRunning d t t
    by_cases ht : d.runningTerm = t ∨ ScreenCall.setRunning t ∈ calls
    · have hwf : (d.terminalSetRunning t).WellFormed := by
        rcases ht with ht | ht
        · rwa [terminalSetRunning, if_pos ht]
        · exact wellFormed_terminalSetRunning h (hopen t ht)
      obtain ⟨alone, halone, hshow⟩ := run_screens
        ((issued t d.runningTerm calls).map .output) hwf (fun u hu => by simp at hu)
      refine ⟨alone, halone, ?_⟩
      rw [hd' t, hshow t, runningTerm_terminalSetRunning, issued_outputs, hscreen]
    · -- a terminal that never runs gets no calls
      obtain ⟨hne, hnot⟩ := not_or.mp ht
      have hnil := issued_eq_nil hne hnot
      refine ⟨d.terminalSetRunning t, ?_, ?_⟩
      · rw [hnil]
        rfl
      · rw [hd' t, hnil, hscreen]
        rfl
  · intro as a bs u v hsplit hu hv t ht
    have hwf : u.WellFormed := by
      refine wellFormed_run h (fun r hr => hopen r ?_) hu
      rw [hsplit]
      exact List.mem_append_left _ hr
    exact step_other hwf hv ht

/-- Two terminals and the null terminal take turns from boot on. -/
theorem output_isolated_turns :
    let calls : List ScreenCall := [.output (.putc 76), .setRunning (some 0), .output .clear,
      .output (.putc 97), .setRunning (some 1), .output (.putc 10), .setRunning none,
      .output (.putc 8), .setRunning (some 0), .output .resetCursor, .output (.putc 98)]
    let d := boot (fun _ => 0) fun t => decide (t.val < 2)
    ∃ d', run step d calls = .ok d' ∧
      (∀ t, ∃ alone, run step d
          (.setRunning t :: (issued t d.runningTerm calls).map .output) = .ok alone ∧
        d'.screen t = alone.screen t) ∧
      ∀ as a bs u v, calls = as ++ a :: bs → run step d as = .ok u → step u a = .ok v →
        ∀ t, (∀ o, a = .output o → u.runningTerm ≠ t) → v.screen t = u.screen t := by
  intro calls d
  refine output_isolated (boot_wellFormed _ _) fun t ht i hi => ?_
  have hcases : t = some 0 ∨ t = some 1 ∨ t = none := by
    simp only [calls, List.mem_cons, ScreenCall.setRunning.injEq, reduceCtorEq, false_or,
      List.not_mem_nil, or_false] at ht
    tauto
  rcases hcases with rfl | rfl | rfl
  · obtain rfl := Option.some.inj hi
    decide
  · obtain rfl := Option.some.inj hi
    decide
  · cases hi

end Display

/-! ## The kernel -/

/-- `terminal_set_running` of the kernel model is this one, as far as the kernel keeps the
display in its state. -/
theorem Kernel.terminalSetRunning_display (k : Kernel) {d : Display} (t : Option TermId)
    (hv : k.vidmem = d.vidmem) (hr : k.runningTerm = d.runningTerm) :
    (k.terminalSetRunning t).vidmem = (d.terminalSetRunning t).vidmem ∧
      (k.terminalSetRunning t).runningTerm = (d.terminalSetRunning t).runningTerm := by
  rw [Kernel.terminalSetRunning, Display.terminalSetRunning, hr]
  split_ifs
  · exact ⟨hv, hr⟩
  · exact ⟨by rw [← hv], rfl⟩

end AuroraOS
