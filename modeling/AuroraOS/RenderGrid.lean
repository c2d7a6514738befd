/-
# The grid of the windows

What `render_windows` needs from its grid: the edges of all text areas in order, so that the
window that is visible at the corner of a cell is visible in the whole cell.  `Drawn` says which
characters of a window are drawn from the cells where it is visible.
-/
import AuroraOS.Render

namespace AuroraOS

open Blit

/-! ## Areas of a window -/

namespace GuiWindow

/-- The text area. -/
def InBody (win : GuiWindow) (x y : ℤ) : Prop :=
  (win.termX ≤ x ∧ x < win.termX + 640) ∧ win.termY ≤ y ∧ y < win.termY + 480

/-- The text area with the border. -/
def InFrame (win : GuiWindow) (x y : ℤ) : Prop :=
  (win.termX - 6 ≤ x ∧ x < win.termX + 646) ∧ win.termY - 21 ≤ y ∧ y < win.termY + 484

instance (win : GuiWindow) (x y : ℤ) : Decidable (win.InBody x y) :=
  inferInstanceAs (Decidable ((_ ∧ _) ∧ _ ∧ _))

instance (win : GuiWindow) (x y : ℤ) : Decidable (win.InFrame x y) :=
  inferInstanceAs (Decidable ((_ ∧ _) ∧ _ ∧ _))

/-- The position is accepted by `is_valid_position`. -/
def Valid (win : GuiWindow) : Prop := isValidPosition win.termX win.termY = true

theorem valid_iff (win : GuiWindow) : win.Valid ↔
    (6 ≤ win.termX ∧ win.termX ≤ 378) ∧ 21 ≤ win.termY ∧ win.termY ≤ 284 := by
  simp only [Valid, isValidPosition, guiWinLeftRightMargin, terminalWidthPixel, vgaWidth,
    guiWinTitleBarHeight, terminalHeightPixel, guiWinDownMargin, vgaHeight, Bool.and_eq_true,
    Bool.not_eq_true', decide_eq_false_iff_not]
  omega

variable {win : GuiWindow} {x y : ℤ}

theorem inFrame_of_inBody (h : win.InBody x y) : win.InFrame x y := by
  unfold InBody at h
  unfold InFrame
  omega

theorem checkInside_eq_inBody : win.checkInside x y = .inBody ↔ win.InBody x y := by
  simp only [checkInside, InBody, guiWinLeftRightMargin, terminalWidthPixel,
    guiWinTitleBarHeight, terminalHeightPixel, guiWinDownMargin]
  constructor
  · intro h
    split_ifs at h with h1 h2 h3 h4 h5 h6
    omega
  · intro h
    rw [if_neg (by omega), if_neg (by omega), if_pos (by omega)]

end GuiWindow

/-! ## The visible window -/

/-- The point is in the text area of the window at an index of the stack. -/
def WindowStack.Body (stack : WindowStack) (i : ℕ) (x y : ℤ) : Prop :=
  ∃ win, stack i = some win ∧ win.InBody x y

theorem check_eq_inBody {stack : WindowStack} {i : ℕ} {x y : ℤ} :
    GuiWindow.check x y (stack i) = .inBody ↔ stack.Body i x y := by
  unfold WindowStack.Body
  cases hi : stack i with
  | none => simp [GuiWindow.check]
  | some win =>
    rw [GuiWindow.check, GuiWindow.checkInside_eq_inBody]
    simp

/-- **The visible window** is the first one in the stack whose text area has the point. -/
theorem findVisibleWinOn_eq_some {stack : WindowStack} {x y : ℤ} {i : ℕ} :
    findVisibleWinOn stack x y = some i ↔
      i < guiMaxWindowNum ∧ stack.Body i x y ∧ ∀ j < i, ¬stack.Body j x y := by
  rw [findVisibleWinOn, List.find?_range_eq_some]
  simp only [decide_eq_true_eq, List.mem_range, check_eq_inBody, Bool.not_eq_true',
    decide_eq_false_iff_not]
  tauto

/-! ## Lines of the grid -/

/-- The elements `0 .. n` of an array are the edges `E`. -/
structure EdgeList (E : ℤ → Prop) (n : ℤ) (arr : ℤ → ℤ) : Prop where
  nonneg : 1 ≤ n
  sound : ∀ k, 0 ≤ k → k ≤ n → E (arr k)
  complete : ∀ v, E v → ∃ k, (0 ≤ k ∧ k ≤ n) ∧ arr k = v

/-- The edges of the screen on one axis. -/
theorem lists_screen (limit : ℤ) :
    EdgeList (fun v => v = 0 ∨ v = limit) 1
      (Function.update (Function.update (fun _ => 0) 0 0) 1 limit) where
  nonneg := le_rfl
  sound k h0 h1 := by
    have hk : k = 0 ∨ k = 1 := by omega
    rcases hk with rfl | rfl
    · exact Or.inl rfl
    · exact Or.inr (Function.update_self _ _ _)
  complete v hv := by
    rcases hv with rfl | rfl
    · exact ⟨0, by omega, rfl⟩
    · exact ⟨1, by omega, Function.update_self _ _ _⟩

/-- Two more edges. -/
theorem EdgeList.add {E : ℤ → Prop} {n : ℤ} {arr : ℤ → ℤ} (h : EdgeList E n arr) (a b : ℤ) :
    EdgeList (fun v => E v ∨ v = a ∨ v = b) (n + 2)
      (Function.update (Function.update arr (n + 1) a) (n + 2) b) where
  nonneg := by
    have := h.nonneg
    omega
  sound k h0 hn := by
    rw [Function.update_apply, Function.update_apply]
    split_ifs with h2 h1
    · exact Or.inr (Or.inr rfl)
    · exact Or.inr (Or.inl rfl)
    · exact Or.inl (h.sound k h0 (by omega))
  complete v hv := by
    have hn := h.nonneg
    rcases hv with hv | rfl | rfl
    · obtain ⟨k, hk, rfl⟩ := h.complete v hv
      refine ⟨k, by omega, ?_⟩
      rw [Function.update_of_ne (by omega), Function.update_of_ne (by omega)]
    · refine ⟨n + 1, by omega, ?_⟩
      rw [Function.update_of_ne (by omega), Function.update_self]
    · exact ⟨n + 2, by omega, Function.update_self _ _ _⟩

theorem EdgeList.congr {E E' : ℤ → Prop} {n : ℤ} {arr : ℤ → ℤ} (h : EdgeList E n arr)
    (hE : ∀ v, E v ↔ E' v) : EdgeList E' n arr where
  nonneg := h.nonneg
  sound k h0 hn := (hE _).mp (h.sound k h0 hn)
  complete v hv := h.complete v ((hE v).mpr hv)

/-- The edges of the windows with an index below `n`, on one axis. -/
def EdgeBelow (stack : WindowStack) (pos : GuiWindow → ℤ) (size limit : ℤ) (n : ℕ) (v : ℤ) : Prop :=
  (v = 0 ∨ v = limit) ∨ ∃ i < n, ∃ win, stack i = some win ∧ (v = pos win ∨ v = pos win + size)

theorem edgeBelow_zero {stack : WindowStack} {pos : GuiWindow → ℤ} {size limit v : ℤ} :
    EdgeBelow stack pos size limit 0 v ↔ v = 0 ∨ v = limit := by
  simp [EdgeBelow]

theorem edgeBelow_succ {stack : WindowStack} {pos : GuiWindow → ℤ} {size limit v : ℤ} {n : ℕ} :
    EdgeBelow stack pos size limit (n + 1) v ↔ EdgeBelow stack pos size limit n v ∨
      ∃ win, stack n = some win ∧ (v = pos win ∨ v = pos win + size) := by
  unfold EdgeBelow
  constructor
  · rintro (h | ⟨i, hi, hwin⟩)
    · exact Or.inl (Or.inl h)
    · rcases Nat.lt_succ_iff_lt_or_eq.mp hi with hlt | rfl
      · exact Or.inl (Or.inr ⟨i, hlt, hwin⟩)
      · exact Or.inr hwin
  · rintro ((h | ⟨i, hi, hwin⟩) | hwin)
    · exact Or.inl h
    · exact Or.inr ⟨i, Nat.lt_succ_of_lt hi, hwin⟩
    · exact Or.inr ⟨n, Nat.lt_succ_self n, hwin⟩

/-- **The generated grid** has the edges of all windows, on both axes. -/
theorem generate_lists (stack : WindowStack) (n : ℕ) :
    EdgeList (EdgeBelow stack GuiWindow.termX 640 1024 n) (Grid.generate stack n).count
        (Grid.generate stack n).x ∧
      EdgeList (EdgeBelow stack GuiWindow.termY 480 768 n) (Grid.generate stack n).count
        (Grid.generate stack n).y := by
  induction n with
  | zero =>
    exact ⟨(lists_screen 1024).congr fun v => edgeBelow_zero.symm,
      (lists_screen 768).congr fun v => edgeBelow_zero.symm⟩
  | succ n ih =>
    rw [Grid.generate]
    cases hwin : stack n with
    | none =>
      refine ⟨ih.1.congr fun v => ?_, ih.2.congr fun v => ?_⟩ <;>
        simp [edgeBelow_succ, hwin]
    | some win =>
      refine ⟨(ih.1.add win.termX (win.termX + 640)).congr fun v => ?_,
        (ih.2.add win.termY (win.termY + 480)).congr fun v => ?_⟩ <;>
        simp [edgeBelow_succ, hwin]

/-- The elements `0 .. n` of an array are the edges `E`, in order. -/
structure EdgeLine (E : ℤ → Prop) (n : ℤ) (arr : ℤ → ℤ) : Prop extends EdgeList E n arr where
  mono : QuickSort.SortedOn arr 0 n

theorem EdgeList.sorted {E : ℤ → Prop} {n : ℤ} {arr : ℤ → ℤ} (h : EdgeList E n arr) :
    EdgeLine E n (quickSort arr 0 n) := by
  have hre := quickSort_rearranges arr 0 n
  refine ⟨⟨h.nonneg, fun k h0 hk => ?_, fun v hv => ?_⟩, quickSort_sortedOn arr 0 n⟩
  · obtain ⟨k', hk', heq⟩ := hre.source ⟨h0, hk⟩
    rw [heq]
    exact h.sound k' hk'.1 hk'.2
  · obtain ⟨k, hk, rfl⟩ := h.complete v hv
    obtain ⟨k', hk', heq⟩ := hre.symm.source hk
    exact ⟨k', hk', heq.symm⟩

namespace EdgeLine

variable {E : ℤ → Prop} {n limit : ℤ} {arr : ℤ → ℤ}

/-- No edge is between two neighbours. -/
theorem gap (h : EdgeLine E n arr) {idx : ℕ} (hidx : (idx : ℤ) < n) {v : ℤ} (hv : E v) :
    v ≤ arr idx ∨ arr (idx + 1) ≤ v := by
  obtain ⟨k, hk, rfl⟩ := h.complete v hv
  by_cases hle : k ≤ idx
  · exact Or.inl (h.mono k idx hk.1 hle (by omega))
  · exact Or.inr (h.mono (idx + 1) k (by omega) (by omega) hk.2)

/-- Every coordinate from the first edge on, in front of the last one, is in a cell. -/
theorem cell (h : EdgeLine E n arr) {first last v : ℤ} (hfirst : E first) (hlast : E last)
    (hv : first ≤ v) (hv' : v < last) :
    ∃ idx : ℕ, (idx : ℤ) < n ∧ arr idx ≤ v ∧ v < arr (idx + 1) := by
  obtain ⟨a, ha, rfl⟩ := h.complete first hfirst
  obtain ⟨b, hb, rfl⟩ := h.complete last hlast
  classical
  -- the last edge that is not behind the coordinate
  set P : ℕ → Prop := fun k => arr k ≤ v with hP
  have hstart : P a.toNat := by
    show arr (a.toNat : ℤ) ≤ v
    rwa [Int.toNat_of_nonneg ha.1]
  have hspec := Nat.findGreatest_spec (P := P) (n := n.toNat) (by omega) hstart
  have hgreatest := fun k => Nat.findGreatest_is_greatest (P := P) (n := n.toNat) (k := k)
  have hle := Nat.findGreatest_le (P := P) n.toNat
  set idx := Nat.findGreatest P n.toNat with hidx
  have hlt : (idx : ℤ) < b := by
    by_contra hge
    have := h.mono b idx hb.1 (by omega) (by omega)
    have hspec' : arr idx ≤ v := hspec
    omega
  refine ⟨idx, by omega, hspec, ?_⟩
  have hnext := hgreatest (idx + 1) (by omega) (by omega)
  have hnext' : ¬arr ((idx + 1 : ℕ) : ℤ) ≤ v := hnext
  push_cast at hnext'
  omega

/-- The cells that begin at an edge. -/
theorem cell_at (h : EdgeLine E n arr) {v last : ℤ} (hv : E v) (hlast : E last) (hlt : v < last) :
    ∃ idx : ℕ, (idx : ℤ) < n ∧ arr idx = v ∧ v < arr (idx + 1) := by
  obtain ⟨idx, hn, hle, hlt'⟩ := h.cell hv hlast le_rfl hlt
  refine ⟨idx, hn, ?_, hlt'⟩
  rcases h.gap hn hv with hge | hge
  · omega
  · omega

end EdgeLine

/-- An edge of the grid on the x axis. -/
abbrev EdgeX (stack : WindowStack) : ℤ → Prop :=
  EdgeBelow stack GuiWindow.termX 640 1024 guiMaxWindowNum

/-- An edge of the grid on the y axis. -/
abbrev EdgeY (stack : WindowStack) : ℤ → Prop :=
  EdgeBelow stack GuiWindow.termY 480 768 guiMaxWindowNum

theorem line_x (stack : WindowStack) : EdgeLine (EdgeX stack)
    (gridOf stack).count (gridOf stack).x :=
  (generate_lists stack guiMaxWindowNum).1.sorted

theorem line_y (stack : WindowStack) : EdgeLine (EdgeY stack)
    (gridOf stack).count (gridOf stack).y :=
  (generate_lists stack guiMaxWindowNum).2.sorted

theorem edgeX_zero (stack : WindowStack) : EdgeX stack 0 := Or.inl (Or.inl rfl)

theorem edgeX_last (stack : WindowStack) : EdgeX stack 1024 := Or.inl (Or.inr rfl)

theorem edgeY_zero (stack : WindowStack) : EdgeY stack 0 := Or.inl (Or.inl rfl)

theorem edgeY_last (stack : WindowStack) : EdgeY stack 768 := Or.inl (Or.inr rfl)

section Edges

variable {stack : WindowStack} {i : ℕ} {win : GuiWindow} (hi : i < guiMaxWindowNum)
  (hwin : stack i = some win)
include hi hwin

theorem edgeX_left : EdgeX stack win.termX := Or.inr ⟨i, hi, win, hwin, Or.inl rfl⟩

theorem edgeX_right : EdgeX stack (win.termX + 640) := Or.inr ⟨i, hi, win, hwin, Or.inr rfl⟩

theorem edgeY_top : EdgeY stack win.termY := Or.inr ⟨i, hi, win, hwin, Or.inl rfl⟩

theorem edgeY_bottom : EdgeY stack (win.termY + 480) := Or.inr ⟨i, hi, win, hwin, Or.inr rfl⟩

end Edges

/-! ## Cells -/

/-- The point is in a cell of the grid. -/
structure InCell (g : Grid) (idx idy : ℕ) (x y : ℤ) : Prop where
  idx_lt : (idx : ℤ) < g.count
  idy_lt : (idy : ℤ) < g.count
  left : g.x idx ≤ x
  right : x < g.x (idx + 1)
  top : g.y idy ≤ y
  bottom : y < g.y (idy + 1)

/-- A window has the whole text of a cell, or nothing of it. -/
theorem body_cell {stack : WindowStack} {idx idy : ℕ} {x y : ℤ}
    (h : InCell (gridOf stack) idx idy x y) {i : ℕ} (hi : i < guiMaxWindowNum) :
    stack.Body i ((gridOf stack).x idx) ((gridOf stack).y idy) ↔ stack.Body i x y := by
  obtain ⟨hidx, hidy, hl, hr, ht, hb⟩ := h
  have hgap : ∀ win, stack i = some win →
      (win.InBody ((gridOf stack).x idx) ((gridOf stack).y idy) ↔ win.InBody x y) := by
    intro win hwin
    have h1 := (line_x stack).gap hidx (edgeX_left hi hwin)
    have h2 := (line_x stack).gap hidx (edgeX_right hi hwin)
    have h3 := (line_y stack).gap hidy (edgeY_top hi hwin)
    have h4 := (line_y stack).gap hidy (edgeY_bottom hi hwin)
    unfold GuiWindow.InBody
    omega
  constructor
  · rintro ⟨win, hwin, hin⟩
    exact ⟨win, hwin, (hgap win hwin).mp hin⟩
  · rintro ⟨win, hwin, hin⟩
    exact ⟨win, hwin, (hgap win hwin).mpr hin⟩

/-- **The owner of a cell** is the visible window at each of its points. -/
theorem gridOwner_eq_some {stack : WindowStack} {idx idy : ℕ} {x y : ℤ}
    (h : InCell (gridOf stack) idx idy x y) {i : ℕ} :
    gridOwner stack (gridOf stack) idx idy = some i ↔
      i < guiMaxWindowNum ∧ stack.Body i x y ∧ ∀ j < i, ¬stack.Body j x y := by
  rw [gridOwner, findVisibleWinOn_eq_some]
  constructor
  · rintro ⟨hi, hbody, habove⟩
    refine ⟨hi, (body_cell h hi).mp hbody, fun j hj hb => ?_⟩
    exact habove j hj ((body_cell h (hj.trans hi)).mpr hb)
  · rintro ⟨hi, hbody, habove⟩
    refine ⟨hi, (body_cell h hi).mpr hbody, fun j hj hb => ?_⟩
    exact habove j hj ((body_cell h (hj.trans hi)).mp hb)

/-! ## Characters -/

/-- The characters that are drawn for the part `lo .. hi` of a window at `pos`, for
characters of `unit` pixels: the first one is rounded down, and their number is that of the
part alone, rounded up. -/
def Span (lo hi pos unit q : ℤ) : Prop :=
  (lo - pos) / unit ≤ q ∧ q < (lo - pos) / unit + ceilDiv (hi - lo) unit

instance (lo hi pos unit q : ℤ) : Decidable (Span lo hi pos unit q) :=
  inferInstanceAs (Decidable (_ ∧ _))

/-- A column of the part that is not drawn belongs to the character that its end cuts, and
seven columns of it are missing only behind a part of whole characters. -/
theorem span_miss_x {lo hi pos v : ℤ} (hlo : lo ≤ v) (hhi : v < hi)
    (hmiss : ¬Span lo hi pos 8 ((v - pos) / 8)) :
    (hi - pos) / 8 = (v - pos) / 8 ∧ 0 < (hi - pos) % 8 ∧
      ((hi - pos) % 8 = 7 → (hi - lo) % 8 = 0) := by
  unfold Span ceilDiv at hmiss
  omega

/-- A row of the part that is not drawn belongs to the character that its end cuts. -/
theorem span_miss_y {lo hi pos v : ℤ} (hlo : lo ≤ v) (hhi : v < hi)
    (hmiss : ¬Span lo hi pos 16 ((v - pos) / 16)) :
    (hi - pos) / 16 = (v - pos) / 16 ∧ 0 < (hi - pos) % 16 := by
  unfold Span ceilDiv at hmiss
  omega

/-- The first character of a part is drawn. -/
theorem span_first_x {lo hi pos q : ℤ} (h : lo < hi) (hq : (lo - pos) / 8 = q) :
    Span lo hi pos 8 q := by
  unfold Span ceilDiv
  omega

theorem span_first_y {lo hi pos q : ℤ} (h : lo < hi) (hq : (lo - pos) / 16 = q) :
    Span lo hi pos 16 q := by
  unfold Span ceilDiv
  omega

/-- The character in column `q` and row `r` is drawn from a cell where the window is visible. -/
def Drawn (stack : WindowStack) (i : ℕ) (win : GuiWindow) (q r : ℤ) : Prop :=
  ∃ idx idy : ℕ, (idx : ℤ) < (gridOf stack).count ∧ (idy : ℤ) < (gridOf stack).count ∧
    gridOwner stack (gridOf stack) idx idy = some i ∧
    Span ((gridOf stack).x idx) ((gridOf stack).x (idx + 1)) win.termX 8 q ∧
    Span ((gridOf stack).y idy) ((gridOf stack).y (idy + 1)) win.termY 16 r

/-! ## Missed pixels -/

/-- All windows of the stack are at valid positions. -/
def WindowStack.Valid (stack : WindowStack) : Prop :=
  ∀ i < guiMaxWindowNum, ∀ win, stack i = some win → win.Valid

/-- A pixel of the text of a window that is not on the top, with nothing above it. -/
structure VisiblePixel (stack : WindowStack) (i : ℕ) (win : GuiWindow) (x y : ℤ) : Prop where
  pos : 1 ≤ i
  lt : i < guiMaxWindowNum
  here : stack i = some win
  body : win.InBody x y
  visible : ∀ j < i, ∀ v, stack j = some v → ¬v.InFrame x y

/-- A visible pixel whose character is drawn from no cell. -/
structure MissedPixel (stack : WindowStack) (i : ℕ) (win : GuiWindow) (x y : ℤ) : Prop
    extends VisiblePixel stack i win x y where
  missed : ¬Drawn stack i win ((x - win.termX) / 8) ((y - win.termY) / 16)

/-- The rows between two neighbouring edges. -/
structure Strip (stack : WindowStack) (lo hi : ℤ) : Prop where
  low : EdgeY stack lo
  high : EdgeY stack hi
  lt : lo < hi
  gap : ∀ e, EdgeY stack e → e ≤ lo ∨ hi ≤ e

/-- A visible pixel seven columns to the left of the text of a window above, in the first
column of a character; the next edge on the left is a multiple of eight columns away from
this text, and its row is not drawn from the strips where the lower window is visible
in the first column of this text. -/
structure MissedColumn (stack : WindowStack) (i : ℕ) (win : GuiWindow) (x y : ℤ) : Prop
    extends VisiblePixel stack i win x y where
  above : ∃ j < i, ∃ v, stack j = some v ∧ v.termX = x + 7
  start : (x - win.termX) % 8 = 0
  edge : ∃ e, EdgeX stack e ∧ e < x + 7 ∧ (∀ e', EdgeX stack e' → e' < x + 7 → e' ≤ e) ∧
    (x + 7 - e) % 8 = 0
  row : ∀ lo hi, Strip stack lo hi → stack.Body i (x + 7) lo → (∀ j < i, ¬stack.Body j (x + 7) lo) →
    ¬Span lo hi win.termY 16 ((y - win.termY) / 16)

section Missed

variable {stack : WindowStack} {i : ℕ} {win : GuiWindow} {x y : ℤ} {idx idy : ℕ}

/-- A point of the text of a window: its cell belongs to this window, or a window above it has
the point in its text. -/
theorem owner_or_above (hi : i < guiMaxWindowNum) (hwin : stack i = some win)
    (hcell : InCell (gridOf stack) idx idy x y) (hbody : win.InBody x y) :
    gridOwner stack (gridOf stack) idx idy = some i ∨
      ∃ j < i, ∃ v, stack j = some v ∧ v.InBody x y := by
  by_cases habove : ∃ j < i, ∃ v, stack j = some v ∧ v.InBody x y
  · exact Or.inr habove
  · refine Or.inl ((gridOwner_eq_some hcell).mpr ⟨hi, ⟨win, hwin, hbody⟩, ?_⟩)
    rintro j hj ⟨v, hv, hin⟩
    exact habove ⟨j, hj, v, hv, hin⟩

/-- No window above the owner of a cell has text in it. -/
theorem not_body_of_owner (hcell : InCell (gridOf stack) idx idy x y)
    (howner : gridOwner stack (gridOf stack) idx idy = some i) {j : ℕ} (hj : j < i)
    {v : GuiWindow} (hv : stack j = some v) : ¬v.InBody x y := fun hin =>
  ((gridOwner_eq_some hcell).mp howner).2.2 j hj ⟨v, hv, hin⟩

/-- The cells of a window lie in its text area. -/
theorem cell_in_body (hi : i < guiMaxWindowNum) (hwin : stack i = some win)
    (hcell : InCell (gridOf stack) idx idy x y) (hbody : win.InBody x y) :
    (win.termX ≤ (gridOf stack).x idx ∧ (gridOf stack).x (idx + 1) ≤ win.termX + 640) ∧
      win.termY ≤ (gridOf stack).y idy ∧ (gridOf stack).y (idy + 1) ≤ win.termY + 480 := by
  obtain ⟨hidx, hidy, hl, hr, ht, hb⟩ := hcell
  unfold GuiWindow.InBody at hbody
  have h1 := (line_x stack).gap hidx (edgeX_left hi hwin)
  have h2 := (line_x stack).gap hidx (edgeX_right hi hwin)
  have h3 := (line_y stack).gap hidy (edgeY_top hi hwin)
  have h4 := (line_y stack).gap hidy (edgeY_bottom hi hwin)
  omega

/-- The end of a cell on the x axis is an edge. -/
theorem edgeX_end (hidx : (idx : ℤ) < (gridOf stack).count) :
    EdgeX stack ((gridOf stack).x (idx + 1)) :=
  (line_x stack).sound _ (by omega) (by omega)

theorem edgeY_end (hidy : (idy : ℤ) < (gridOf stack).count) :
    EdgeY stack ((gridOf stack).y (idy + 1)) :=
  (line_y stack).sound _ (by omega) (by omega)

variable (hvalid : stack.Valid)
include hvalid

/-- A visible pixel is in a cell of its window. -/
theorem VisiblePixel.inCell (h : VisiblePixel stack i win x y) :
    ∃ idx idy, InCell (gridOf stack) idx idy x y ∧
      gridOwner stack (gridOf stack) idx idy = some i := by
  have hpos := (win.valid_iff.mp (hvalid i h.lt win h.here))
  have hbody := h.body
  unfold GuiWindow.InBody at hbody
  obtain ⟨idx, hidx, hl, hr⟩ := (line_x stack).cell (edgeX_zero stack) (edgeX_last stack)
    (v := x) (by omega) (by omega)
  obtain ⟨idy, hidy, ht, hb⟩ := (line_y stack).cell (edgeY_zero stack) (edgeY_last stack)
    (v := y) (by omega) (by omega)
  have hcell : InCell (gridOf stack) idx idy x y := ⟨hidx, hidy, hl, hr, ht, hb⟩
  refine ⟨idx, idy, hcell, (gridOwner_eq_some hcell).mpr ⟨h.lt, ⟨win, h.here, h.body⟩, ?_⟩⟩
  rintro j hj ⟨v, hv, hin⟩
  exact h.visible j hj v hv (GuiWindow.inFrame_of_inBody hin)

/-- **The row of a visible pixel is drawn** in its column of cells: by its own cell or by the
one below, which is not hidden, because the title bar of a window that begins there would
hide the pixel. -/
theorem VisiblePixel.row (h : VisiblePixel stack i win x y)
    (hcell : InCell (gridOf stack) idx idy x y)
    (howner : gridOwner stack (gridOf stack) idx idy = some i) :
    ∃ idy' y', InCell (gridOf stack) idx idy' x y' ∧
      gridOwner stack (gridOf stack) idx idy' = some i ∧
      Span ((gridOf stack).y idy') ((gridOf stack).y (idy' + 1)) win.termY 16
        ((y - win.termY) / 16) ∧ y ≤ y' ∧ y' ≤ y + 15 := by
  by_cases hspan : Span ((gridOf stack).y idy) ((gridOf stack).y (idy + 1)) win.termY 16
      ((y - win.termY) / 16)
  · exact ⟨idy, y, hcell, howner, hspan, le_rfl, by omega⟩
  have hpos := win.valid_iff.mp (hvalid i h.lt win h.here)
  have hin := cell_in_body h.lt h.here hcell h.body
  obtain ⟨hsame, hmod⟩ := span_miss_y hcell.top hcell.bottom hspan
  have hbody := h.body
  unfold GuiWindow.InBody at hbody
  have hlast : (gridOf stack).y (idy + 1) < win.termY + 480 := by omega
  obtain ⟨idy', hidy', hstart, hend⟩ := (line_y stack).cell_at (edgeY_end hcell.idy_lt)
    (edgeY_last stack) (by omega)
  have hcell' : InCell (gridOf stack) idx idy' x ((gridOf stack).y (idy + 1)) :=
    ⟨hcell.idx_lt, hidy', hcell.left, hcell.right, hstart.le, hend⟩
  have hlow := hcell.bottom
  refine ⟨idy', (gridOf stack).y (idy + 1), hcell', ?_, ?_, by omega, by omega⟩
  · have hbelow : win.InBody x ((gridOf stack).y (idy + 1)) := by
      unfold GuiWindow.InBody
      omega
    rcases owner_or_above h.lt h.here hcell' hbelow with hown | ⟨j, hj, v, hv, hvin⟩
    · exact hown
    · exfalso
      have hvnot := not_body_of_owner hcell howner hj hv
      have hgap := (line_y stack).gap hcell.idy_lt (edgeY_top (hj.trans h.lt) hv)
      have hvis := h.visible j hj v hv
      have htop := hcell.top
      unfold GuiWindow.InBody at hvin hvnot
      unfold GuiWindow.InFrame at hvis
      omega
  · exact span_first_y (hstart.symm ▸ hend) (by rw [hstart]; exact hsame)

/-- **A missed pixel is in a missed column.** -/
theorem MissedPixel.column (h : MissedPixel stack i win x y) : MissedColumn stack i win x y := by
  obtain ⟨idx, idy, hcell, howner⟩ := h.toVisiblePixel.inCell hvalid
  obtain ⟨idy', y', hcell', howner', hrow, hy, hy'⟩ :=
    h.toVisiblePixel.row hvalid hcell howner
  have hpos := win.valid_iff.mp (hvalid i h.lt win h.here)
  have hin := cell_in_body h.lt h.here hcell h.body
  have hbody := h.body
  unfold GuiWindow.InBody at hbody
  -- the column is not drawn by the cells above each other that have the pixel's column
  have hspan : ¬Span ((gridOf stack).x idx) ((gridOf stack).x (idx + 1)) win.termX 8
      ((x - win.termX) / 8) := fun hcol =>
    h.missed ⟨idx, idy', hcell'.idx_lt, hcell'.idy_lt, howner', hcol, hrow⟩
  obtain ⟨hsame, hmod, hwhole⟩ := span_miss_x hcell.left hcell.right hspan
  have hlast : (gridOf stack).x (idx + 1) < win.termX + 640 := by omega
  obtain ⟨idx', hidx', hstart, hend⟩ := (line_x stack).cell_at (edgeX_end hcell.idx_lt)
    (edgeX_last stack) (by omega)
  have hright : InCell (gridOf stack) idx' idy' ((gridOf stack).x (idx + 1)) y' :=
    ⟨hidx', hcell'.idy_lt, hstart.le, hend, hcell'.top, hcell'.bottom⟩
  have hxr := hcell.right
  have hin' : win.InBody ((gridOf stack).x (idx + 1)) y' := by
    have howned := ((gridOwner_eq_some hcell').mp howner').2.1
    obtain ⟨win', hwin', hbody'⟩ := howned
    obtain rfl := Option.some.inj (h.here.symm.trans hwin')
    unfold GuiWindow.InBody at hbody' ⊢
    omega
  -- so the next cell belongs to a window above, whose text begins there
  obtain ⟨j, hj, v, hv, hvx, hx⟩ : ∃ j < i, ∃ v, stack j = some v ∧
      v.termX = (gridOf stack).x (idx + 1) ∧ x + 7 = (gridOf stack).x (idx + 1) := by
    rcases owner_or_above h.lt h.here hright hin' with hown | ⟨j, hj, v, hv, hvin⟩
    · exact absurd ⟨idx', idy', hidx', hcell'.idy_lt, hown,
        span_first_x (hstart.symm ▸ hend) (by rw [hstart]; exact hsame), hrow⟩ h.missed
    · refine ⟨j, hj, v, hv, ?_⟩
      have hvnot := not_body_of_owner hcell' howner' hj hv
      have hgap := (line_x stack).gap hcell.idx_lt (edgeX_left (hj.trans h.lt) hv)
      have hvis := h.visible j hj v hv
      have hxl := hcell.left
      unfold GuiWindow.InBody at hvin hvnot
      unfold GuiWindow.InFrame at hvis
      omega
  refine ⟨h.toVisiblePixel, ⟨j, hj, v, hv, hvx.trans hx.symm⟩, by omega, ?_, ?_⟩
  · have hxl := hcell.left
    refine ⟨(gridOf stack).x idx, (line_x stack).sound _ (by omega)
      (by have := hcell.idx_lt; omega),
      by omega, fun e' he' hlt => ?_, ?_⟩
    · have hgap := (line_x stack).gap hcell.idx_lt he'
      omega
    · have := hwhole (by omega)
      omega
  · intro lo hi hstrip hbody' habove hrow₃
    obtain ⟨idy₃, hidy₃, hlo, hhi⟩ := (line_y stack).cell_at hstrip.low hstrip.high hstrip.lt
    have hhi' : (gridOf stack).y (idy₃ + 1) = hi := by
      have h1 := hstrip.gap _ (edgeY_end hidy₃)
      have h2 := (line_y stack).gap hidy₃ hstrip.high
      have h3 := hstrip.lt
      omega
    refine h.missed ⟨idx', idy₃, hidx', hidy₃, ?_, span_first_x (by omega) ?_, ?_⟩
    · rw [gridOwner, findVisibleWinOn_eq_some, hstart, hlo, ← hx]
      exact ⟨h.lt, hbody', habove⟩
    · rw [hstart]
      exact hsame
    · rw [hlo, hhi']
      exact hrow₃

end Missed

/-- **A missed column is missed**: the cells on the left stop in front of it, and those that
begin behind it do not draw its row. -/
theorem MissedColumn.pixel {stack : WindowStack} {i : ℕ} {win : GuiWindow} {x y : ℤ}
    (h : MissedColumn stack i win x y) : MissedPixel stack i win x y := by
  refine ⟨h.toVisiblePixel, ?_⟩
  rintro ⟨idx, idy, hidx, hidy, hown, hcol, hrow⟩
  obtain ⟨j, hj, v, hv, hvx⟩ := h.above
  obtain ⟨e, he, hlt, hnext, hmod⟩ := h.edge
  have hstart := h.start
  have hedge : EdgeX stack ((gridOf stack).x idx) :=
    (line_x stack).sound _ (by omega) (by omega)
  have hend := edgeX_end hidx
  have hwide := (line_x stack).mono idx (idx + 1) (by omega) (by omega) (by omega)
  unfold Span ceilDiv at hcol
  by_cases hat : (gridOf stack).x idx = x + 7
  · obtain ⟨-, hbody, habove⟩ := findVisibleWinOn_eq_some.mp hown
    rw [hat] at hbody habove
    refine h.row _ _ ⟨(line_y stack).sound _ (by omega) (by omega), edgeY_end hidy, ?_,
      fun e he => (line_y stack).gap hidy he⟩ hbody habove hrow
    unfold Span ceilDiv at hrow
    omega
  · have hle := hnext _ hedge (by omega)
    have hgap := (line_x stack).gap hidx (edgeX_left (hj.trans h.lt) hv)
    rw [hvx] at hgap
    rcases lt_or_ge ((gridOf stack).x (idx + 1)) (x + 7) with hbefore | hbehind
    · have hle' := hnext _ hend hbefore
      omega
    · -- the part ends at the text above, so it begins with the edge in front of it
      have hgap' := (line_x stack).gap hidx he
      omega

/-- **Which pixels are missed.** -/
theorem missedPixel_iff {stack : WindowStack} (hvalid : stack.Valid) {i : ℕ} {win : GuiWindow}
    {x y : ℤ} : MissedPixel stack i win x y ↔ MissedColumn stack i win x y :=
  ⟨fun h => h.column hvalid, fun h => h.pixel⟩

end AuroraOS
