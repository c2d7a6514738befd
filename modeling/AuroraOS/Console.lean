/-
# What is left on the text screen

`putc`, `scroll_up`, `clear` and `reset_cursor` of `lib.c` once more, on the array `screen_char`
alone and with the index of every write.  A newline in the last column does not clear the cell
under the cursor, and yet no old character is ever left at or behind the cursor: whatever moves
the cursor forward has either written the cells that it leaves behind, or was at the end of the
row.

`Screen` is the same text with the operations in closed form, so the console and the displays of
the terminals show the same.
-/
import AuroraOS.TextScreen

namespace AuroraOS

/-! ## The code -/

/-- `screen_char`, `screen_x` and `screen_y`, and the indices written to so far. -/
structure Console where
  chars : ℤ → UInt8
  x : ℤ
  y : ℤ
  writes : List ℤ

namespace Console

/-- `screen_char[i] = c`. -/
def setChar (s : Console) (i : ℤ) (c : UInt8) : Console :=
  { s with chars := Function.update s.chars i c, writes := i :: s.writes }

/-- A loop that stores `c` to `n` characters from index `i` on. -/
def fill (c : UInt8) : ℕ → ℤ → Console → Console
  | 0, _, s => s
  | n + 1, i, s => fill c n (i + 1) (s.setChar i c)

/-- The inner loop of `scroll_up`: `n` characters of row `y` from column `x` on. -/
def copyRow (y : ℤ) : ℕ → ℤ → Console → Console
  | 0, _, s => s
  | n + 1, x, s =>
    copyRow y n (x + 1)
      (s.setChar ((y - 1) * terminalTextCols + x) (s.chars (y * terminalTextCols + x)))

/-- The outer loop of `scroll_up`: `n` rows from row `y` on. -/
def copyRows : ℕ → ℤ → Console → Console
  | 0, _, s => s
  | n + 1, y, s => copyRows n (y + 1) (copyRow y terminalTextCols 0 s)

/-- `scroll_up`. -/
def scrollUp (s : Console) : Console :=
  let s := copyRows (terminalTextRows - 1) 1 s
  let s := fill 0 terminalTextCols (((terminalTextRows : ℤ) - 1) * terminalTextCols) s
  { s with y := (terminalTextRows : ℤ) - 1, x := 0 }

/-- `if (TERMINAL_TEXT_ROWS == screen_y) scroll_up();` -/
def scrollIfFull (s : Console) : Console :=
  if s.y = (terminalTextRows : ℤ) then s.scrollUp else s

/-- The cursor of the backspace branch of `putc`. -/
def stepBack (s : Console) : Console :=
  if s.x = 0 then { s with x := (terminalTextCols : ℤ) - 1, y := s.y - 1 }
  else { s with x := s.x - 1 }

/-- `putc`. -/
def putc (s : Console) (c : UInt8) : Console :=
  if c = 10 ∨ c = 13 then
    let s :=
      if s.x < (terminalTextCols : ℤ) - 1 then
        fill 0 ((terminalTextCols : ℤ) - s.x).toNat (s.y * terminalTextCols + s.x) s
      else s
    scrollIfFull { s with x := 0, y := s.y + 1 }
  else if c = 8 then
    if s.x = 0 ∧ s.y = 0 then s
    else
      let s := s.stepBack
      s.setChar (s.y * terminalTextCols + s.x) 0
  else
    let s := s.setChar (s.y * terminalTextCols + s.x) c
    let s := { s with x := s.x + 1 }
    if s.x = (terminalTextCols : ℤ) then
      scrollIfFull { s with x := s.x % terminalTextCols, y := s.y + 1 }
    else s

/-- The outer loop of `clear`: `n` rows from row `y` on. -/
def clearRows : ℕ → ℤ → Console → Console
  | 0, _, s => s
  | n + 1, y, s => clearRows n (y + 1) (fill 32 terminalTextCols (y * terminalTextCols) s)

/-- `clear`. -/
def clear (s : Console) : Console := clearRows terminalTextRows 0 s

/-- `reset_cursor`. -/
def resetCursor (s : Console) : Console := { s with x := 0, y := 0 }

/-! ## The screen that the console shows -/

/-- The text and the cursor. -/
def screen (s : Console) : Screen := ⟨fun j => s.chars j.val, s.x, s.y⟩

theorem setChar_screen (s : Console) (i : ℤ) (c : UInt8) :
    (s.setChar i c).screen = s.screen.fill c 1 i := by
  simp only [setChar, screen, Screen.fill, Screen.mk.injEq, and_true]
  funext j
  rw [Function.update_apply]
  split_ifs <;> first | rfl | omega

theorem fill_screen (c : UInt8) (n : ℕ) : ∀ (i : ℤ) (s : Console),
    (fill c n i s).screen = s.screen.fill c n i := by
  induction n with
  | zero =>
    intro i s
    rw [Screen.fill_zero]
    rfl
  | succ n ih =>
    intro i s
    rw [fill, ih, setChar_screen, Nat.add_comm n, ← Screen.fill_fill]
    rfl

/-- A character is copied from the row below. -/
theorem copyChar_screen (s : Console) {i : ℤ} (h0 : 0 ≤ i) (hi : i + 80 < 2400) :
    (s.setChar i (s.chars (i + 80))).screen = s.screen.raise 1 i := by
  rw [setChar_screen]
  simp only [Screen.fill, Screen.raise, screen, Screen.mk.injEq, and_true]
  funext j
  split_ifs with h1 h2
  · congr 1
    push_cast
    omega
  · omega
  · rfl
  · rfl

theorem copyRow_screen (y : ℤ) (hy : 1 ≤ y) (hy' : y < 30) (n : ℕ) :
    ∀ (x : ℤ) (s : Console), 0 ≤ x → x + n ≤ 80 →
      (copyRow y n x s).screen = s.screen.raise n ((y - 1) * 80 + x) := by
  induction n with
  | zero =>
    intro x s _ _
    rw [Screen.raise_zero]
    rfl
  | succ n ih =>
    intro x s h0 hn
    push_cast at hn
    have hrow : y * (terminalTextCols : ℤ) + x = ((y - 1) * (terminalTextCols : ℤ) + x) + 80 := by
      push_cast
      ring
    rw [copyRow, ih _ _ (by omega) (by omega), hrow,
      copyChar_screen _ (by push_cast; omega) (by push_cast; omega), Nat.add_comm n,
      ← Screen.raise_raise, ← add_assoc]
    rfl

theorem copyRows_screen (n : ℕ) : ∀ (y : ℤ) (s : Console), 1 ≤ y → y + n ≤ 30 →
    (copyRows n y s).screen = s.screen.raise (80 * n) ((y - 1) * 80) := by
  induction n with
  | zero =>
    intro y s _ _
    rw [Nat.mul_zero, Screen.raise_zero]
    rfl
  | succ n ih =>
    intro y s hy hn
    push_cast at hn
    have hnext : (y + 1 - 1) * 80 = (y - 1) * 80 + (80 : ℕ) := by
      push_cast
      ring
    rw [copyRows, ih _ _ (by omega) (by omega),
      copyRow_screen y hy (by omega) _ _ _ le_rfl (by decide), add_zero, Nat.mul_succ,
      Nat.add_comm (80 * n), ← Screen.raise_raise, hnext]

theorem clearRows_screen (n : ℕ) : ∀ (y : ℤ) (s : Console),
    (clearRows n y s).screen = s.screen.fill 32 (80 * n) (y * 80) := by
  induction n with
  | zero =>
    intro y s
    rw [Nat.mul_zero, Screen.fill_zero]
    rfl
  | succ n ih =>
    intro y s
    have hnext : (y + 1) * 80 = y * 80 + (80 : ℕ) := by
      push_cast
      ring
    rw [clearRows, ih, fill_screen, Nat.mul_succ, Nat.add_comm (80 * n), ← Screen.fill_fill, hnext]
    rfl

theorem scrollUp_screen (s : Console) : s.scrollUp.screen = s.screen.scrollUp := by
  have hcopy : (copyRows (terminalTextRows - 1) 1 s).screen = s.screen.raise 2320 0 :=
    copyRows_screen 29 1 s le_rfl (by decide)
  have hfill := fill_screen 0 terminalTextCols (((terminalTextRows : ℤ) - 1) * terminalTextCols)
    (copyRows (terminalTextRows - 1) 1 s)
  rw [hcopy] at hfill
  exact congrArg (fun t => t.moveTo 0 29) hfill

/-- The cursor goes to the start of the next row. -/
theorem scrollIfFull_screen (s : Console) :
    (scrollIfFull { s with x := 0, y := s.y + 1 }).screen = s.screen.nextRow := by
  rw [scrollIfFull, Screen.nextRow]
  by_cases hfull : s.y + 1 = 30
  · rw [if_pos (by exact hfull), if_pos (by exact hfull), scrollUp_screen]
    rfl
  · rw [if_neg (by exact hfull), if_neg (by exact hfull)]
    rfl

theorem stepBack_screen (s : Console) : s.stepBack.screen = s.screen.retreat := by
  rw [stepBack, Screen.retreat]
  by_cases hx : s.x = 0
  · rw [if_pos hx, if_pos (by exact hx)]
    rfl
  · rw [if_neg hx, if_neg (by exact hx)]
    rfl

/-- **`putc`** is the operation on the screen. -/
theorem putc_screen (s : Console) (c : UInt8) : (s.putc c).screen = s.screen.putc c := by
  rw [putc, Screen.putc]
  by_cases hn : c = 10 ∨ c = 13
  · rw [if_pos hn, if_pos hn, Screen.clearRow]
    simp only
    rw [scrollIfFull_screen]
    by_cases hcol : s.x < 79
    · rw [if_pos (by exact hcol), if_pos (by exact hcol), fill_screen]
      rfl
    · rw [if_neg (by exact hcol), if_neg (by exact hcol)]
  rw [if_neg hn, if_neg hn]
  by_cases hb : c = 8
  · rw [if_pos hb, if_pos hb]
    by_cases h0 : s.x = 0 ∧ s.y = 0
    · rw [if_pos h0, if_pos (by exact h0)]
    · rw [if_neg h0, if_neg (by exact h0), ← stepBack_screen]
      exact setChar_screen s.stepBack _ 0
  · rw [if_neg hb, if_neg hb, Screen.advance]
    simp only
    have hput : (s.setChar (s.y * terminalTextCols + s.x) c).screen = s.screen.put c :=
      setChar_screen s _ c
    by_cases hend : s.x + 1 = 80
    · have hmod : (s.x + 1) % ((terminalTextCols : ℕ) : ℤ) = 0 := by
        rw [hend]
        rfl
      rw [if_pos (by exact hend), if_pos (by exact hend), ← hput, ← scrollIfFull_screen]
      show (scrollIfFull { s.setChar _ c with x := (s.x + 1) % _, y := _ }).screen = _
      rw [hmod]
    · rw [if_neg (by exact hend), if_neg (by exact hend), ← hput]
      rfl

/-! ## Where it writes -/

/-- Every write so far was to a cell of the screen. -/
def WritesInside (s : Console) : Prop :=
  ∀ i ∈ s.writes, 0 ≤ i ∧ i < terminalTextCols * terminalTextRows

variable {s : Console}

theorem writesInside_setChar (h : s.WritesInside) {i : ℤ} (h0 : 0 ≤ i) (hi : i < 2400) (c : UInt8) :
    (s.setChar i c).WritesInside := by
  intro j hj
  rcases List.mem_cons.mp hj with rfl | hj
  · exact ⟨h0, hi⟩
  · exact h j hj

theorem writesInside_fill (c : UInt8) (n : ℕ) : ∀ {i : ℤ} {s : Console}, s.WritesInside →
    0 ≤ i → i + n ≤ 2400 → (fill c n i s).WritesInside := by
  induction n with
  | zero => exact fun h _ _ => h
  | succ n ih =>
    intro i s h h0 hn
    push_cast at hn
    exact ih (writesInside_setChar h h0 (by omega) c) (by omega) (by omega)

theorem writesInside_copyRow (y : ℤ) (hy : 1 ≤ y) (hy' : y < 30) (n : ℕ) :
    ∀ {x : ℤ} {s : Console}, s.WritesInside → 0 ≤ x → x + n ≤ 80 →
      (copyRow y n x s).WritesInside := by
  induction n with
  | zero => exact fun h _ _ => h
  | succ n ih =>
    intro x s h h0 hn
    push_cast at hn
    refine ih (writesInside_setChar h ?_ ?_ _) (by omega) (by omega)
    · push_cast
      omega
    · push_cast
      omega

theorem writesInside_copyRows (n : ℕ) : ∀ {y : ℤ} {s : Console}, s.WritesInside → 1 ≤ y →
    y + n ≤ 30 → (copyRows n y s).WritesInside := by
  induction n with
  | zero => exact fun h _ _ => h
  | succ n ih =>
    intro y s h hy hn
    push_cast at hn
    exact ih (writesInside_copyRow y hy (by omega) _ h le_rfl (by decide)) (by omega) (by omega)

theorem writesInside_clearRows (n : ℕ) : ∀ {y : ℤ} {s : Console}, s.WritesInside → 0 ≤ y →
    y + n ≤ 30 → (clearRows n y s).WritesInside := by
  induction n with
  | zero => exact fun h _ _ => h
  | succ n ih =>
    intro y s h hy hn
    push_cast at hn
    refine ih (writesInside_fill 32 _ h ?_ ?_) (by omega) (by omega)
    · push_cast
      omega
    · push_cast
      omega

theorem writesInside_scrollIfFull (h : s.WritesInside) : s.scrollIfFull.WritesInside := by
  have hrow : ((terminalTextRows : ℤ) - 1) * terminalTextCols = 2320 := rfl
  rw [scrollIfFull]
  split_ifs
  · have hcopy : (copyRows (terminalTextRows - 1) 1 s).WritesInside :=
      writesInside_copyRows 29 h le_rfl (by decide)
    have hfill := writesInside_fill 0 terminalTextCols hcopy
      (i := ((terminalTextRows : ℤ) - 1) * terminalTextCols) (by rw [hrow]; omega)
      (by rw [hrow]; decide)
    intro i hi
    rw [scrollUp] at hi
    exact hfill i hi
  · exact h

theorem writesInside_putc (h : s.WritesInside) (hs : s.screen.InRange) (c : UInt8) :
    (s.putc c).WritesInside := by
  obtain ⟨hx, hx', hy, hy'⟩ : 0 ≤ s.x ∧ s.x < 80 ∧ 0 ≤ s.y ∧ s.y < 30 := hs
  rw [putc]
  by_cases hn : c = 10 ∨ c = 13
  · rw [if_pos hn]
    refine writesInside_scrollIfFull ?_
    by_cases hcol : s.x < 79
    · have hfill := writesInside_fill 0 (80 - s.x).toNat h (i := s.y * 80 + s.x) (by omega)
        (by omega)
      rw [if_pos (by exact hcol)]
      exact hfill
    · rw [if_neg (by exact hcol)]
      exact h
  rw [if_neg hn]
  by_cases hb : c = 8
  · rw [if_pos hb]
    by_cases h0 : s.x = 0 ∧ s.y = 0
    · rw [if_pos h0]
      exact h
    · rw [if_neg h0]
      have hback := Screen.inRange_retreat (s := s.screen) ⟨hx, hx', hy, hy'⟩ h0
      rw [← stepBack_screen] at hback
      obtain ⟨hbx, hbx', hby, hby'⟩ :
        0 ≤ s.stepBack.x ∧ s.stepBack.x < 80 ∧ 0 ≤ s.stepBack.y ∧ s.stepBack.y < 30 := hback
      have hwrites : s.stepBack.WritesInside := by
        rw [stepBack]
        split_ifs <;> exact h
      exact writesInside_setChar hwrites (i := s.stepBack.y * 80 + s.stepBack.x) (by omega)
        (by omega) 0
  · rw [if_neg hb]
    have hput : (s.setChar (s.y * 80 + s.x) c).WritesInside :=
      writesInside_setChar h (by omega) (by omega) c
    simp only
    split_ifs
    · exact writesInside_scrollIfFull hput
    · exact hput

end Console

namespace Screen

variable {s : Screen}

/-- Every cell at the cursor or behind it is empty or a space. -/
def BlankBehind (s : Screen) : Prop :=
  ∀ j : Fin 2400, s.y * 80 + s.x ≤ j.val → s.chars j = 0 ∨ s.chars j = 32

theorem blankBehind_nextRow (hs : s.InRange)
    (h : ∀ j : Fin 2400, s.y * 80 + 80 ≤ j.val → s.chars j = 0 ∨ s.chars j = 32) :
    s.nextRow.BlankBehind := by
  obtain ⟨hx, hx', hy, hy'⟩ := hs
  rw [nextRow]
  split_ifs with hfull
  · -- the row that scrolling makes free is empty
    intro j hj
    have hj' : (29 : ℤ) * 80 + 0 ≤ j.val := hj
    left
    exact if_pos ⟨by omega, by omega⟩
  · intro j hj
    have hj' : (s.y + 1) * 80 + 0 ≤ j.val := hj
    exact h j (by omega)

/-- **No call of `putc` leaves a character at or behind the cursor.** -/
theorem blankBehind_putc (hs : s.InRange) (h : s.BlankBehind) (c : UInt8) :
    (s.putc c).BlankBehind := by
  obtain ⟨hx, hx', hy, hy'⟩ := hs
  have hs : s.InRange := ⟨hx, hx', hy, hy'⟩
  rw [putc]
  by_cases hn : c = 10 ∨ c = 13
  · -- in the last column nothing is cleared, and the cursor leaves the row as it was
    rw [if_pos hn]
    refine blankBehind_nextRow (inRange_clearRow hs) fun j hj => ?_
    rw [clearRow] at hj ⊢
    split_ifs at hj ⊢
    · have hj' : s.y * 80 + 80 ≤ j.val := hj
      have hold : (s.fill 0 (80 - s.x).toNat (s.y * 80 + s.x)).chars j = s.chars j :=
        if_neg (by omega)
      rw [hold]
      exact h j (by omega)
    · exact h j (by omega)
  rw [if_neg hn]
  by_cases hb : c = 8
  · rw [if_pos hb]
    by_cases h0 : s.x = 0 ∧ s.y = 0
    · rw [if_pos h0]
      exact h
    · rw [if_neg h0]
      have hcursor : s.retreat.y * 80 + s.retreat.x = s.y * 80 + s.x - 1 := by
        rw [retreat]
        split_ifs with h1
        · show (s.y - 1) * 80 + 79 = _
          omega
        · show s.y * 80 + (s.x - 1) = _
          omega
      intro j hj
      have hj' : s.retreat.y * 80 + s.retreat.x ≤ j.val := hj
      by_cases he : (j.val : ℤ) = s.y * 80 + s.x - 1
      · left
        exact if_pos (by push_cast; omega)
      · have hold : (s.retreat.put 0).chars j = s.retreat.chars j := if_neg (by push_cast; omega)
        have hsame : s.retreat.chars = s.chars := by
          rw [retreat]
          split_ifs <;> rfl
        rw [hold, hsame]
        exact h j (by omega)
  · rw [if_neg hb, advance]
    have hold : ∀ j : Fin 2400, s.y * 80 + s.x + 1 ≤ j.val →
        (s.put c).chars j = 0 ∨ (s.put c).chars j = 32 := by
      intro j hj
      have hsame : (s.put c).chars j = s.chars j := if_neg (by push_cast; omega)
      rw [hsame]
      exact h j (by omega)
    by_cases hend : s.x + 1 = 80
    · rw [if_pos (by exact hend)]
      refine blankBehind_nextRow (inRange_fill hs _ _ _) fun j hj => hold j ?_
      have hj' : s.y * 80 + 80 ≤ j.val := hj
      omega
    · rw [if_neg (by exact hend)]
      intro j hj
      have hj' : s.y * 80 + (s.x + 1) ≤ j.val := hj
      exact hold j (by omega)

end Screen

/-! ## Runs -/

namespace Console

variable {s : Console}

/-- **The invariant of the text screen**: the cursor is on it, all writes were to its cells, and
nothing is left at the cursor or behind it. -/
structure Tidy (s : Console) : Prop where
  x : 0 ≤ s.x ∧ s.x < terminalTextCols
  y : 0 ≤ s.y ∧ s.y < terminalTextRows
  writes : s.WritesInside
  blank : ∀ i : ℤ, s.y * terminalTextCols + s.x ≤ i → i < terminalTextCols * terminalTextRows →
    s.chars i = 0 ∨ s.chars i = 32

theorem tidy_iff :
    s.Tidy ↔ s.screen.InRange ∧ s.WritesInside ∧ s.screen.BlankBehind := by
  constructor
  · rintro ⟨⟨hx, hx'⟩, ⟨hy, hy'⟩, hw, hb⟩
    refine ⟨⟨hx, hx', hy, hy'⟩, hw, fun j hj => hb j.val hj ?_⟩
    have hj' := j.isLt
    push_cast
    omega
  · rintro ⟨⟨hx, hx', hy, hy'⟩, hw, hb⟩
    refine ⟨⟨hx, hx'⟩, ⟨hy, hy'⟩, hw, fun i hi hi' => ?_⟩
    have hcell : s.y * 80 + s.x ≤ i := hi
    have hend : i < 2400 := hi'
    have hy0 : 0 ≤ s.y := hy
    have hx0 : 0 ≤ s.x := hx
    have hi0 : ((i.toNat : ℕ) : ℤ) = i := Int.toNat_of_nonneg (by omega)
    have h := hb ⟨i.toNat, by omega⟩
    simp only [screen, hi0] at h
    exact h hcell

theorem tidy_putc (h : s.Tidy) (c : UInt8) : (s.putc c).Tidy := by
  obtain ⟨hs, hw, hb⟩ := tidy_iff.mp h
  refine tidy_iff.mpr ⟨?_, writesInside_putc hw hs c, ?_⟩
  · rw [putc_screen]
    exact Screen.inRange_output hs (.putc c)
  · rw [putc_screen]
    exact Screen.blankBehind_putc hs hb c

/-- Any characters and any cursor, before anything is written. -/
def fresh (chars : ℤ → UInt8) (x y : ℤ) : Console where
  chars := chars
  x := x
  y := y
  writes := []

theorem writesInside_clear (h : s.WritesInside) : s.clear.WritesInside :=
  writesInside_clearRows terminalTextRows h le_rfl (by decide)

/-- Every cell is a space. -/
theorem clear_screen (s : Console) (j : Fin 2400) : s.clear.screen.chars j = 32 := by
  have hj := j.isLt
  rw [clear, clearRows_screen]
  simp only [Screen.fill]
  rw [if_pos (by push_cast; omega)]

theorem tidy_start (chars : ℤ → UInt8) (x y : ℤ) : (fresh chars x y).clear.resetCursor.Tidy := by
  have hin : (fresh chars x y).clear.WritesInside := by
    apply writesInside_clear
    intro i hi
    cases hi
  rw [tidy_iff]
  have hcell := clear_screen (fresh chars x y)
  generalize (fresh chars x y).clear = s at hin hcell
  exact ⟨Screen.inRange_moveTo (s := s.screen) (x := 0) (y := 0) (by decide) (by decide), hin,
    fun j _ => Or.inr (hcell j)⟩

/-- **Text screen.**  From `clear` and `reset_cursor` on, after any characters, the cursor is on
the screen, every write was inside of it, and every cell at or behind the cursor is blank. -/
theorem console_tidy (chars : ℤ → UInt8) (x y : ℤ) (cs : List UInt8) :
    (cs.foldl putc (fresh chars x y).clear.resetCursor).Tidy := by
  have hrun : ∀ s : Console, s.Tidy → (cs.foldl putc s).Tidy := by
    induction cs with
    | nil => exact fun _ h => h
    | cons c cs ih => exact fun s h => ih (s.putc c) (tidy_putc h c)
  exact hrun _ (tidy_start chars x y)

end Console

end AuroraOS
