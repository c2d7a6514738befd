/-
# What rendering indexes

`render_windows` once more, with checked subscripts: for `grid_x`, `grid_y` and `grid` the
declared sizes, and for the text of a window the columns and rows of a text screen.  The arrays
are global, so a frame starts with what the last one left in them.

Rendering with the checks is rendering without them, for every window stack.
-/
import AuroraOS.Painting

namespace AuroraOS

open Blit CheckedArray Machine

/-! ## The code -/

/-- The elements of `grid_x` and of `grid_y`: `GUI_MAX_WINDOW_NUM * 2 + 2`. -/
def gridEdges : Bounds := .ofSize (guiMaxWindowNum * 2 + 2)

/-- Both subscripts of `grid`: `GUI_MAX_WINDOW_NUM * 2 + 1`. -/
def gridSide : Bounds := .ofSize (guiMaxWindowNum * 2 + 1)

/-- `TERMINAL_TEXT_COLS`. -/
def textCols : Bounds := .ofSize 80

/-- `TERMINAL_TEXT_ROWS`. -/
def textRows : Bounds := .ofSize 30

/-- `grid`, with the index of the window in the stack. -/
abbrev Owners := ℤ → ℤ → Option ℕ

namespace Grid

/-- The grid of an empty screen, over the arrays of the last frame. -/
def screenChecked (old : Grid) : Except OutOfBounds Grid := do
  let x ← gridEdges.set old.x 0 0
  let y ← gridEdges.set old.y 0 0
  let x ← gridEdges.set x 1 vgaWidth
  let y ← gridEdges.set y 1 vgaHeight
  .ok { count := 1, x := x, y := y }

/-- The edges of one window are added. -/
def addChecked (g : Grid) (win : GuiWindow) : Except OutOfBounds Grid := do
  let x ← gridEdges.set g.x (g.count + 1) win.termX
  let y ← gridEdges.set g.y (g.count + 1) win.termY
  let x ← gridEdges.set x (g.count + 2) (win.termX + terminalWidthPixel)
  let y ← gridEdges.set y (g.count + 2) (win.termY + terminalHeightPixel)
  .ok { count := g.count + 2, x := x, y := y }

/-- The loop over the windows with an index below `n`. -/
def generateChecked (old : Grid) (stack : WindowStack) : ℕ → Except OutOfBounds Grid
  | 0 => old.screenChecked
  | n + 1 => do
    let g ← generateChecked old stack n
    (stack n).elim (.ok g) g.addChecked

/-- The two calls of `quick_sort`. -/
def sortedChecked (g : Grid) : Except OutOfBounds Grid := do
  let x ← QuickSort.sortChecked gridEdges (g.count - 0 + 1).toNat g.x 0 g.count
  let y ← QuickSort.sortChecked gridEdges (g.count - 0 + 1).toNat g.y 0 g.count
  .ok { count := g.count, x := x, y := y }

end Grid

section Rendering

-- `curr_y`, `window_stack`, and the text buffer of the window at every index
variable (currY : ℤ) (stack : WindowStack) (text : ℕ → ℤ → UInt8)

/-- `draw_terminal_content`. -/
def drawTerminalContentChecked (buf : ℤ → UInt8)
    (bufStartX bufStartY bufCols bufRows termX termY : ℤ) : Except OutOfBounds (List Copy) :=
  collect (fun y : ℕ =>
    collect (fun x : ℕ => do
      let ch ← textRows.get₂ textCols (fun row col => buf (row * 80 + col))
        (y + bufStartY) (x + bufStartX)
      .ok [printChar currY ch (x * fontWidth + termX) (y * fontHeight + termY)])
      (List.range bufCols.toNat))
    (List.range bufRows.toNat)

/-- The part of the window `i` in one cell of the grid; both divisions round towards zero. -/
def drawCellChecked (g : Grid) (i : ℕ) (win : GuiWindow) (idx idy : ℕ) :
    Except OutOfBounds (List Copy) := do
  let left ← gridEdges.get g.x idx
  let right ← gridEdges.get g.x (idx + 1)
  let top ← gridEdges.get g.y idy
  let bottom ← gridEdges.get g.y (idy + 1)
  let bufStartX := (left - win.termX).tdiv fontWidth
  let bufCols := (right - left + fontWidth - 1).tdiv fontWidth
  let bufStartY := (top - win.termY).tdiv fontHeight
  let bufRows := (bottom - top + fontHeight - 1).tdiv fontHeight
  drawTerminalContentChecked currY (text i) bufStartX bufStartY bufCols bufRows
    (win.termX + bufStartX * fontWidth) (win.termY + bufStartY * fontHeight)

/-- One iteration of the loops that fill `grid`. -/
def fillCellChecked (g : Grid) (owners : Owners) (cell : ℕ × ℕ) :
    Except OutOfBounds (Owners × List Copy) := do
  let x ← gridEdges.get g.x cell.1
  let y ← gridEdges.get g.y cell.2
  let owner := findVisibleWinOn stack x y
  let owners ← gridSide.set₂ gridSide owners cell.1 cell.2 owner
  let calls ← owner.elim (.ok []) fun i =>
    (stack i).elim (.ok []) fun win => drawCellChecked currY text g i win cell.1 cell.2
  .ok (owners, calls)

/-- The loops that fill `grid`. -/
def fillGridsChecked (g : Grid) : List (ℕ × ℕ) → Owners → Except OutOfBounds (Owners × List Copy)
  | [], owners => .ok (owners, [])
  | cell :: cells, owners => do
    let r ← fillCellChecked currY stack text g owners cell
    let rest ← fillGridsChecked g cells r.1
    .ok (rest.1, r.2 ++ rest.2)

/-- An inactive window: the cells where it is visible, and its border. -/
def drawInactiveChecked (g : Grid) (owners : Owners) (i : ℕ) (win : GuiWindow) :
    Except OutOfBounds (List Copy) := do
  let calls ← collect (fun cell : ℕ × ℕ => do
      let owner ← gridSide.get₂ gridSide owners cell.1 cell.2
      if owner = some i then drawCellChecked currY text g i win cell.1 cell.2 else .ok [])
    (gridCells g)
  .ok (calls ++ drawWindowBorder currY win.termX win.termY (-1) (-1) (-1))

/-- The top window with its complete text. -/
def drawTopChecked (win : GuiWindow) : Except OutOfBounds (List Copy) := do
  let calls ← drawTerminalContentChecked currY (text 0) 0 0 80 30 win.termX win.termY
  .ok (calls ++ drawWindowBorder currY win.termX win.termY 0 (-1) (-1))

/-- `render_windows`, with the contents of `grid_x`, `grid_y` and `grid` before it. -/
def renderWindowsChecked (old : Grid) (owners : Owners) : Except OutOfBounds (List Copy) := do
  let g ← old.generateChecked stack guiMaxWindowNum
  let g ← g.sortedChecked
  let filled ← fillGridsChecked currY stack text g (gridCells g) owners
  let inactive ← collect (fun i =>
      (stack i).elim (.ok []) (drawInactiveChecked currY text g filled.1 i)) [4, 3, 2, 1]
  let top ← (stack 0).elim (.ok []) (drawTopChecked currY text)
  .ok (filled.2 ++ (inactive ++ top))

end Rendering

/-! ## The grid -/

namespace Grid

open Set

/-- Two grids have the same edges. -/
structure Same (g g' : Grid) : Prop where
  count : g.count = g'.count
  x : EqOn g.x g'.x (Icc 0 g'.count)
  y : EqOn g.y g'.y (Icc 0 g'.count)

variable {stack : WindowStack} {g g' : Grid} {n : ℕ}

/-- Every window has two edges on each axis. -/
theorem count_generate (stack : WindowStack) (n : ℕ) :
    1 ≤ (generate stack n).count ∧ (generate stack n).count ≤ 2 * n + 1 := by
  induction n with
  | zero => exact ⟨le_rfl, le_rfl⟩
  | succ n ih =>
    rw [generate]
    rcases hwin : stack n with _ | win
    · exact ⟨ih.1, by push_cast; exact ih.2.trans (by omega)⟩
    · have hcount : (add (generate stack n) win).count = (generate stack n).count + 2 := rfl
      simp only [Option.elim]
      rw [hcount]
      push_cast
      omega

theorem gridEdges_has {i : ℤ} : gridEdges.Has i ↔ 0 ≤ i ∧ i < 12 := Bounds.ofSize_has

/-- What the arrays hold behind the edges does not matter. -/
theorem eqOn_screen (arr arr' : ℤ → ℤ) (limit : ℤ) :
    EqOn (Function.update (Function.update arr 0 0) 1 limit)
      (Function.update (Function.update arr' 0 0) 1 limit) (Icc 0 1) := by
  intro k hk
  obtain ⟨hk0, hk1⟩ : 0 ≤ k ∧ k ≤ 1 := hk
  simp only [Function.update_apply]
  split_ifs
  · rfl
  · rfl
  · omega

theorem eqOn_add {arr arr' : ℤ → ℤ} {n : ℤ} (h : EqOn arr arr' (Icc 0 n)) (a b : ℤ) :
    EqOn (Function.update (Function.update arr (n + 1) a) (n + 2) b)
      (Function.update (Function.update arr' (n + 1) a) (n + 2) b) (Icc 0 (n + 2)) := by
  intro k hk
  obtain ⟨hk0, hk2⟩ : 0 ≤ k ∧ k ≤ n + 2 := hk
  simp only [Function.update_apply]
  split_ifs
  · rfl
  · rfl
  · exact h ⟨hk0, by omega⟩

theorem screenChecked_eq (old : Grid) : ∃ g, old.screenChecked = .ok g ∧ g.Same screen := by
  have h0 : gridEdges.Has 0 := by decide
  have h1 : gridEdges.Has 1 := by decide
  refine ⟨⟨1, Function.update (Function.update old.x 0 0) 1 vgaWidth,
    Function.update (Function.update old.y 0 0) 1 vgaHeight⟩, ?_,
    ⟨rfl, eqOn_screen _ _ _, eqOn_screen _ _ _⟩⟩
  rw [screenChecked, Bounds.set_eq h0, ok_bind, Bounds.set_eq h0, ok_bind, Bounds.set_eq h1,
    ok_bind, Bounds.set_eq h1, ok_bind]

/-- With space for two more edges, they are added. -/
theorem addChecked_eq (h : g.Same g') (h0 : 1 ≤ g'.count) (hlt : g'.count + 2 < 12)
    (win : GuiWindow) : g.addChecked win = .ok (g.add win) ∧ (g.add win).Same (g'.add win) := by
  have h1 : gridEdges.Has (g.count + 1) := gridEdges_has.mpr (by rw [h.count]; omega)
  have h2 : gridEdges.Has (g.count + 2) := gridEdges_has.mpr (by rw [h.count]; omega)
  constructor
  · rw [addChecked, Bounds.set_eq h1, ok_bind, Bounds.set_eq h1, ok_bind, Bounds.set_eq h2,
      ok_bind, Bounds.set_eq h2, ok_bind, add]
  · simp only [add]
    rw [h.count]
    exact ⟨rfl, eqOn_add h.x _ _, eqOn_add h.y _ _⟩

/-- **The edges of all windows have space** in the two arrays. -/
theorem generateChecked_eq (old : Grid) (stack : WindowStack) (hn : n ≤ guiMaxWindowNum) :
    ∃ g, old.generateChecked stack n = .ok g ∧ g.Same (generate stack n) := by
  induction n with
  | zero => exact screenChecked_eq old
  | succ n ih =>
    have hn5 : n + 1 ≤ 5 := hn
    obtain ⟨g, hg, hsame⟩ := ih (by omega)
    obtain ⟨h1, hcount⟩ := count_generate stack n
    rw [generateChecked, hg, ok_bind, generate]
    rcases stack n with _ | win
    · exact ⟨g, rfl, hsame⟩
    · exact ⟨g.add win, addChecked_eq hsame h1 (by omega) win⟩

theorem sortedChecked_eq (h : g.Same g') (hlt : g'.count < 12) :
    g.sortedChecked = .ok g.sorted ∧ g.sorted.Same g'.sorted := by
  have hlast : g.count ≤ gridEdges.last := by
    rw [h.count]
    exact Int.le_sub_one_of_lt hlt
  have hfirst : gridEdges.first ≤ 0 := le_rfl
  constructor
  · rw [sortedChecked, QuickSort.sortChecked_eq _ _ _ _ hfirst hlast, ok_bind,
      QuickSort.sortChecked_eq _ _ _ _ hfirst hlast, ok_bind]
    rfl
  · simp only [sorted, quickSort]
    rw [h.count]
    exact ⟨rfl, QuickSort.sort_congr _ le_rfl le_rfl h.x, QuickSort.sort_congr _ le_rfl le_rfl h.y⟩

end Grid

/-- The cells of a frame start from the edges of its windows, whatever the last frame was. -/
theorem gridChecked_eq (old : Grid) (stack : WindowStack) :
    ∃ g, old.generateChecked stack guiMaxWindowNum = .ok g ∧ g.sortedChecked = .ok g.sorted ∧
      g.sorted.Same (gridOf stack) := by
  obtain ⟨g, hg, hsame⟩ := Grid.generateChecked_eq old stack (n := guiMaxWindowNum) le_rfl
  have hcount := (Grid.count_generate stack guiMaxWindowNum).2
  exact ⟨g, hg, Grid.sortedChecked_eq hsame (lt_of_le_of_lt hcount (by decide))⟩

theorem count_gridOf (stack : WindowStack) : (gridOf stack).count ≤ 11 :=
  (Grid.count_generate stack guiMaxWindowNum).2

/-! ## The text -/

section Drawing

variable {currY : ℤ} {stack : WindowStack} {text : ℕ → ℤ → UInt8}

theorem textRows_has {i : ℤ} : textRows.Has i ↔ 0 ≤ i ∧ i < 30 := Bounds.ofSize_has

theorem textCols_has {i : ℤ} : textCols.Has i ↔ 0 ≤ i ∧ i < 80 := Bounds.ofSize_has

/-- A rectangle of characters that is inside of the text. -/
theorem drawTerminalContentChecked_eq {buf : ℤ → UInt8} {startX startY cols rows termX termY : ℤ}
    (hx : 0 ≤ startX) (hx' : startX + cols ≤ 80) (hy : 0 ≤ startY) (hy' : startY + rows ≤ 30) :
    drawTerminalContentChecked currY buf startX startY cols rows termX termY =
      .ok (drawTerminalContent currY buf startX startY cols rows termX termY) := by
  rw [drawTerminalContentChecked, drawTerminalContent]
  refine collect_eq fun y hymem => ?_
  rw [List.map_eq_flatMap]
  refine collect_eq fun x hxmem => ?_
  rw [List.mem_range] at hymem hxmem
  have hrow : textRows.Has (y + startY) := textRows_has.mpr (by omega)
  have hcol : textCols.Has (x + startX) := textCols_has.mpr (by omega)
  rw [Bounds.get₂_eq hrow hcol, ok_bind]

/-- From the character that the start of a part cuts, the characters of its whole width stay in
the text: what the start loses by rounding down, the width does not gain by rounding up. -/
theorem span_inside_x {lo hi pos : ℤ} (hlo : pos ≤ lo) (hhi : hi ≤ pos + 640) :
    0 ≤ (lo - pos) / 8 ∧ (lo - pos) / 8 + (hi - lo + 8 - 1) / 8 ≤ 80 := by
  omega

theorem span_inside_y {lo hi pos : ℤ} (hlo : pos ≤ lo) (hhi : hi ≤ pos + 480) :
    0 ≤ (lo - pos) / 16 ∧ (lo - pos) / 16 + (hi - lo + 16 - 1) / 16 ≤ 30 := by
  omega

/-- A window that is visible at the corner of a cell has the cell in its text area. -/
theorem cell_of_owner {idx idy i : ℕ} {win : GuiWindow} (hidx : (idx : ℤ) < (gridOf stack).count)
    (hidy : (idy : ℤ) < (gridOf stack).count)
    (howner : gridOwner stack (gridOf stack) idx idy = some i) (hwin : stack i = some win) :
    (win.termX ≤ (gridOf stack).x idx ∧ (gridOf stack).x idx ≤ (gridOf stack).x (idx + 1) ∧
        (gridOf stack).x (idx + 1) ≤ win.termX + 640) ∧
      win.termY ≤ (gridOf stack).y idy ∧ (gridOf stack).y idy ≤ (gridOf stack).y (idy + 1) ∧
        (gridOf stack).y (idy + 1) ≤ win.termY + 480 := by
  obtain ⟨hi, ⟨win', hwin', hbody⟩, -⟩ := findVisibleWinOn_eq_some.mp howner
  obtain rfl : win = win' := Option.some.inj (hwin.symm.trans hwin')
  have hx := (line_x stack).gap hidx (edgeX_right hi hwin)
  have hy := (line_y stack).gap hidy (edgeY_bottom hi hwin)
  have hmx := (line_x stack).mono idx (idx + 1) (by omega) (by omega) (by omega)
  have hmy := (line_y stack).mono idy (idy + 1) (by omega) (by omega) (by omega)
  unfold GuiWindow.InBody at hbody
  omega

/-- **A cell is drawn from inside of the text.** -/
theorem drawCellChecked_eq {g : Grid} (hg : g.Same (gridOf stack)) {idx idy i : ℕ}
    {win : GuiWindow} (hidx : (idx : ℤ) < (gridOf stack).count)
    (hidy : (idy : ℤ) < (gridOf stack).count)
    (howner : gridOwner stack (gridOf stack) idx idy = some i) (hwin : stack i = some win) :
    drawCellChecked currY text g i win idx idy =
      .ok (drawCell currY text (gridOf stack) i win idx idy) := by
  have hcount := count_gridOf stack
  obtain ⟨⟨hx0, hx, hx1⟩, hy0, hy, hy1⟩ := cell_of_owner hidx hidy howner hwin
  have hedge : ∀ k : ℕ, (k : ℤ) < (gridOf stack).count →
      gridEdges.Has k ∧ gridEdges.Has (k + 1) := fun k hk =>
    ⟨Grid.gridEdges_has.mpr (by omega), Grid.gridEdges_has.mpr (by omega)⟩
  rw [drawCellChecked, Bounds.get_eq (hedge idx hidx).1, ok_bind, Bounds.get_eq (hedge idx hidx).2,
    ok_bind, Bounds.get_eq (hedge idy hidy).1, ok_bind, Bounds.get_eq (hedge idy hidy).2, ok_bind,
    hg.x ⟨by omega, by omega⟩, hg.x ⟨by omega, by omega⟩, hg.y ⟨by omega, by omega⟩,
    hg.y ⟨by omega, by omega⟩]
  -- nothing is negative, so both roundings are the same
  have hstartX : 0 ≤ (gridOf stack).x idx - win.termX := by omega
  have hstartY : 0 ≤ (gridOf stack).y idy - win.termY := by omega
  have hwidth : 0 ≤ (gridOf stack).x (idx + 1) - (gridOf stack).x idx + fontWidth - 1 := by
    have hfont : fontWidth = 8 := rfl
    omega
  have hheight : 0 ≤ (gridOf stack).y (idy + 1) - (gridOf stack).y idy + fontHeight - 1 := by
    have hfont : fontHeight = 16 := rfl
    omega
  simp only
  rw [Int.tdiv_eq_ediv_of_nonneg hstartX, Int.tdiv_eq_ediv_of_nonneg hstartY,
    Int.tdiv_eq_ediv_of_nonneg hwidth, Int.tdiv_eq_ediv_of_nonneg hheight]
  obtain ⟨hsx, hsx'⟩ := span_inside_x hx0 hx1
  obtain ⟨hsy, hsy'⟩ := span_inside_y hy0 hy1
  exact drawTerminalContentChecked_eq hsx hsx' hsy hsy'

/-! ## The loops -/

theorem gridSide_has {cell : ℕ × ℕ} (hcell : cell ∈ gridCells (gridOf stack)) :
    gridSide.Has cell.1 ∧ gridSide.Has cell.2 := by
  have hcount := count_gridOf stack
  obtain ⟨h1, h2⟩ := mem_gridCells.mp hcell
  have hside : ∀ k : ℕ, (k : ℤ) < 11 → gridSide.Has k := fun k hk =>
    Bounds.ofSize_has.mpr ⟨by omega, hk⟩
  exact ⟨hside _ (by omega), hside _ (by omega)⟩

/-- One iteration enters the owner of the cell, and draws its part. -/
theorem fillCellChecked_eq {g : Grid} (hg : g.Same (gridOf stack)) {cell : ℕ × ℕ}
    (hcell : cell ∈ gridCells (gridOf stack)) (owners : Owners) :
    fillCellChecked currY stack text g owners cell =
      .ok (Bounds.put owners cell.1 cell.2 (gridOwner stack (gridOf stack) cell.1 cell.2),
        (gridOwner stack (gridOf stack) cell.1 cell.2).elim [] fun i =>
          (stack i).elim [] fun win =>
            drawCell currY text (gridOf stack) i win cell.1 cell.2) := by
  have hcount := count_gridOf stack
  obtain ⟨hidx, hidy⟩ := mem_gridCells.mp hcell
  obtain ⟨hside₁, hside₂⟩ := gridSide_has hcell
  have hx : gridEdges.Has cell.1 := Grid.gridEdges_has.mpr (by omega)
  have hy : gridEdges.Has cell.2 := Grid.gridEdges_has.mpr (by omega)
  rw [fillCellChecked, Bounds.get_eq hx, ok_bind, Bounds.get_eq hy, ok_bind,
    hg.x ⟨by omega, by omega⟩, hg.y ⟨by omega, by omega⟩]
  simp only
  rw [Bounds.set₂_eq hside₁ hside₂, ok_bind]
  rcases howner : gridOwner stack (gridOf stack) cell.1 cell.2 with _ | i
  · rw [gridOwner] at howner
    rw [howner]
    rfl
  · have hfound : findVisibleWinOn stack ((gridOf stack).x cell.1) ((gridOf stack).y cell.2) =
        some i := howner
    rw [hfound]
    rcases hwin : stack i with _ | win
    · simp only [Option.elim, hwin, ok_bind]
    · simp only [Option.elim, hwin]
      rw [drawCellChecked_eq hg hidx hidy howner hwin, ok_bind]

variable (currY text) in
/-- The loops enter the owner of every cell, and draw all parts. -/
theorem fillGridsChecked_eq {g : Grid} (hg : g.Same (gridOf stack)) (cells : List (ℕ × ℕ)) :
    ∀ owners : Owners, (∀ cell ∈ cells, cell ∈ gridCells (gridOf stack)) →
      ∃ owners', fillGridsChecked currY stack text g cells owners =
          .ok (owners', cells.flatMap fun cell =>
            (gridOwner stack (gridOf stack) cell.1 cell.2).elim [] fun i =>
              (stack i).elim [] fun win =>
                drawCell currY text (gridOf stack) i win cell.1 cell.2) ∧
        ∀ cell : ℕ × ℕ,
          owners cell.1 cell.2 = gridOwner stack (gridOf stack) cell.1 cell.2 ∨ cell ∈ cells →
            owners' cell.1 cell.2 = gridOwner stack (gridOf stack) cell.1 cell.2 := by
  induction cells with
  | nil =>
    intro owners _
    refine ⟨owners, rfl, fun cell hcell => ?_⟩
    rcases hcell with hcell | hcell
    · exact hcell
    · cases hcell
  | cons first cells ih =>
    intro owners hcells
    obtain ⟨owners', hrest, hall⟩ := ih
      (Bounds.put owners first.1 first.2 (gridOwner stack (gridOf stack) first.1 first.2))
      fun cell hcell => hcells cell (List.mem_cons_of_mem _ hcell)
    refine ⟨owners', ?_, fun cell hcell => hall cell ?_⟩
    · rw [fillGridsChecked, fillCellChecked_eq hg (hcells first List.mem_cons_self), ok_bind, hrest,
        ok_bind, List.flatMap_cons]
    · -- entered before, in this iteration, or in a later one
      rw [Bounds.put_apply]
      rcases hcell with hcell | hcell
      · left
        split_ifs with hsame
        · rw [Nat.cast_inj, Nat.cast_inj] at hsame
          rw [hsame.1, hsame.2]
        · exact hcell
      · rcases List.mem_cons.mp hcell with rfl | hcell
        · exact Or.inl (if_pos ⟨rfl, rfl⟩)
        · exact Or.inr hcell

theorem drawInactiveChecked_eq {g : Grid} (hg : g.Same (gridOf stack)) {owners : Owners}
    (howners : ∀ cell ∈ gridCells (gridOf stack),
      owners cell.1 cell.2 = gridOwner stack (gridOf stack) cell.1 cell.2)
    {i : ℕ} {win : GuiWindow} (hwin : stack i = some win) :
    drawInactiveChecked currY text g owners i win =
      .ok (drawInactive currY stack text (gridOf stack) i win) := by
  have hcells : gridCells g = gridCells (gridOf stack) := by
    rw [gridCells, hg.count, gridCells]
  rw [drawInactiveChecked, hcells, collect_eq, ok_bind, drawInactive]
  intro cell hcell
  obtain ⟨hidx, hidy⟩ := mem_gridCells.mp hcell
  obtain ⟨hside₁, hside₂⟩ := gridSide_has hcell
  rw [Bounds.get₂_eq hside₁ hside₂, ok_bind, howners cell hcell]
  split_ifs with howner
  · exact drawCellChecked_eq hg hidx hidy howner hwin
  · rfl

theorem drawTopChecked_eq (win : GuiWindow) :
    drawTopChecked currY text win = .ok (drawWhole currY text 0 win 0) := by
  rw [drawTopChecked, drawTerminalContentChecked_eq le_rfl le_rfl le_rfl le_rfl, ok_bind, drawWhole]

end Drawing

/-- **Rendering indexes inside of its arrays**: for every stack of windows, and whatever the last
frame left in the arrays, the checks change nothing. -/
theorem renderWindowsChecked_eq (currY : ℤ) (stack : WindowStack) (text : ℕ → ℤ → UInt8)
    (old : Grid) (owners : Owners) :
    renderWindowsChecked currY stack text old owners = .ok (renderWindows currY stack text) := by
  obtain ⟨g, hgenerate, hsort, hg⟩ := gridChecked_eq old stack
  have hcells : gridCells g.sorted = gridCells (gridOf stack) := by
    rw [gridCells, hg.count, gridCells]
  obtain ⟨owners', hfill, hall⟩ := fillGridsChecked_eq currY text hg
    (gridCells (gridOf stack)) owners fun cell hcell => hcell
  have hinactive : collect (fun i => (stack i).elim (.ok [])
      (drawInactiveChecked currY text g.sorted owners' i)) [4, 3, 2, 1] =
      .ok ([4, 3, 2, 1].flatMap fun i =>
        (stack i).elim [] (drawInactive currY stack text (gridOf stack) i)) := by
    refine collect_eq fun i _ => ?_
    rcases hwin : stack i with _ | win
    · rfl
    · exact drawInactiveChecked_eq hg (fun cell hcell => hall cell (Or.inr hcell)) hwin
  have htop : (stack 0).elim (.ok []) (drawTopChecked currY text) =
      .ok ((stack 0).elim [] fun win => drawWhole currY text 0 win 0) := by
    rcases stack 0 with _ | win
    · rfl
    · exact drawTopChecked_eq win
  rw [renderWindowsChecked, hgenerate, ok_bind, hsort, ok_bind, hcells, hfill, ok_bind, hinactive,
    ok_bind, htop, ok_bind, renderWindows, List.append_assoc]
  rfl

end AuroraOS
