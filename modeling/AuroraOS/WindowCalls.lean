/-
# The window stack under any sequence of calls

`gui_window.c` for windows of any type, with the loops of the source on the array: the three
calls are those of a list of distinct windows that is at most `guiMaxWindowNum` long.

A window is a pointer that is not `NULL`; the entries of the array that are `none` are
`NULL`.
-/
import AuroraOS.Windows

namespace AuroraOS

/-! ## The loops -/

section Loops

variable {α : Type*} {xs : List (Option α)} {i j : ℕ}

/-- The loop of `gui_activate_window`, for `i` down to 1. -/
def moveDown : ℕ → List (Option α) → List (Option α)
  | 0, stack => stack
  | i + 1, stack => moveDown i (stack.set (i + 1) (stack.getD i none))

/-- The loop of `gui_destroy_window`, from `i` on for `n` entries. -/
def moveUp : ℕ → ℕ → List (Option α) → List (Option α)
  | 0, _, stack => stack
  | n + 1, i, stack => moveUp n (i + 1) (stack.set i (stack.getD (i + 1) none))

theorem getElem?_moveDown : ∀ {i : ℕ} {xs : List (Option α)}, i < xs.length → ∀ j,
    (moveDown i xs)[j]? = if 1 ≤ j ∧ j ≤ i then xs[j - 1]? else xs[j]? := by
  intro i
  induction i with
  | zero =>
    intro xs hi j
    rw [if_neg (by omega)]
    rfl
  | succ i ih =>
    intro xs hi j
    have hget : xs[i]? = some (xs.getD i none) := by
      rw [List.getElem?_eq_getElem (by omega), List.getD_eq_getElem _ _ (by omega)]
    rw [moveDown, ih (by rw [List.length_set]; omega), List.getElem?_set, List.getElem?_set]
    by_cases hj : j = i + 1
    · subst hj
      rw [if_neg (by omega), if_pos rfl, if_pos hi, if_pos (by omega), Nat.add_sub_cancel, hget]
    · by_cases hin : 1 ≤ j ∧ j ≤ i
      · rw [if_pos hin, if_neg (by omega), if_pos (by omega)]
      · rw [if_neg hin, if_neg (fun h => hj h.symm), if_neg (by omega)]

theorem getElem?_moveUp : ∀ {n i : ℕ} {xs : List (Option α)}, i + n < xs.length → ∀ j,
    (moveUp n i xs)[j]? = if i ≤ j ∧ j < i + n then xs[j + 1]? else xs[j]? := by
  intro n
  induction n with
  | zero =>
    intro i xs hi j
    rw [if_neg (by omega)]
    rfl
  | succ n ih =>
    intro i xs hi j
    have hget : xs[i + 1]? = some (xs.getD (i + 1) none) := by
      rw [List.getElem?_eq_getElem (by omega), List.getD_eq_getElem _ _ (by omega)]
    rw [moveUp, ih (by rw [List.length_set]; omega), List.getElem?_set, List.getElem?_set]
    by_cases hj : j = i
    · subst hj
      rw [if_neg (by omega), if_pos rfl, if_pos (by omega), if_pos (by omega), hget]
    · by_cases hin : i + 1 ≤ j ∧ j < i + 1 + n
      · rw [if_pos hin, if_neg (by omega), if_pos (by omega)]
      · rw [if_neg hin, if_neg (fun h => hj h.symm), if_neg (by omega)]

/-- The entries above `i` have moved down by one, and `w` is on top. -/
theorem moveDown_set (h : i < xs.length) (w : Option α) :
    (moveDown i xs).set 0 w = w :: xs.take i ++ xs.drop (i + 1) := by
  have hlen : (moveDown i xs).length ≠ 0 := by
    intro h0
    have hnone := getElem?_moveDown h 0
    rw [if_neg (by omega), List.getElem?_eq_none (Nat.le_of_eq h0),
      List.getElem?_eq_getElem (by omega)]
      at hnone
    cases hnone
  apply List.ext_getElem?
  intro j
  rw [List.getElem?_set, List.cons_append]
  cases j with
  | zero => rw [if_pos rfl, if_pos (Nat.pos_of_ne_zero hlen), List.getElem?_cons_zero]
  | succ j =>
    rw [if_neg (by omega), getElem?_moveDown h, List.getElem?_cons_succ, List.getElem?_append,
      List.length_take, Nat.min_eq_left (Nat.le_of_lt h), Nat.add_sub_cancel]
    by_cases hj : j < i
    · rw [if_pos (by omega), if_pos hj, List.getElem?_take_of_lt hj]
    · rw [if_neg (by omega), if_neg hj, List.getElem?_drop]
      congr 1
      omega

/-- The entries below `i` have moved up by one, and the last one is free. -/
theorem moveUp_set (h : i < xs.length) :
    (moveUp (xs.length - 1 - i) i xs).set (xs.length - 1) none =
      xs.take i ++ xs.drop (i + 1) ++ [none] := by
  have hlast : (moveUp (xs.length - 1 - i) i xs)[xs.length - 1]? = xs[xs.length - 1]? := by
    rw [getElem?_moveUp (by omega), if_neg (by omega)]
  have hlen : xs.length - 1 < (moveUp (xs.length - 1 - i) i xs).length := by
    by_contra hlt
    rw [List.getElem?_eq_none (Nat.not_lt.mp hlt), List.getElem?_eq_getElem (by omega)] at hlast
    cases hlast
  apply List.ext_getElem?
  intro j
  rw [List.getElem?_set, List.append_assoc, List.getElem?_append, List.getElem?_append,
    List.length_take, Nat.min_eq_left (Nat.le_of_lt h), List.length_drop,
    getElem?_moveUp (by omega)]
  by_cases hj : xs.length - 1 = j
  · rw [if_pos hj, if_pos hlen, if_neg (by omega), if_neg (by omega)]
    have h0 : j - i - (xs.length - (i + 1)) = 0 := by omega
    rw [h0]
    rfl
  · rw [if_neg hj]
    by_cases hlow : j < i
    · rw [if_neg (by omega), if_pos hlow, List.getElem?_take_of_lt hlow]
    · rw [if_neg hlow]
      by_cases hmid : j < xs.length - 1
      · rw [if_pos (by omega), if_pos (by omega), List.getElem?_drop]
        congr 1
        omega
      · rw [if_neg (by omega), if_neg (by omega), List.getElem?_eq_none (by omega),
          List.getElem?_eq_none]
        rw [List.length_singleton]
        omega

end Loops

/-! ## The calls -/

/-- `GUI_WIN_INITIAL_TERM_X`. -/
abbrev guiWinInitialTermX : ℤ := 50
/-- `GUI_WIN_INITIAL_TERM_Y`. -/
abbrev guiWinInitialTermY : ℤ := 50
/-- `GUI_WIN_INITIAL_OFFSET_X`. -/
abbrev guiWinInitialOffsetX : ℤ := 50
/-- `GUI_WIN_INITIAL_OFFSET_Y`. -/
abbrev guiWinInitialOffsetY : ℤ := 50

/-- The fields of `gui_window_t`; `screen_char` is an address. -/
structure WindowFields where
  termX : ℤ
  termY : ℤ
  screenChar : ℕ
  terminalId : ℤ

/-- `window_stack`, the windows, and the arguments of the calls of `task_change_focus`. -/
structure WindowTable (W : Type*) where
  windowStack : List (Option W)
  fields : W → WindowFields
  focusChanges : List ℤ

/-- A call of one of the three functions. -/
inductive WindowCall (W : Type*) where
  | newWindow (win : W) (screenBuf : ℕ) (terminalId : ℤ)
  | activate (win : W)
  | destroy (win : W)

namespace WindowTable

variable {W : Type*}

/-- `gui_window_init`. -/
def init (fields : W → WindowFields) : WindowTable W where
  windowStack := List.replicate guiMaxWindowNum none
  fields := fields
  focusChanges := []

section Calls

variable [DecidableEq W] (s : WindowTable W)

/-- `find_window_idx`; `none` is -1. -/
def findWindowIdx (win : Option W) : Option ℕ := s.windowStack.findIdx? (· = win)

/-- `gui_new_window`. -/
def guiNewWindow (win : W) (screenBuf : ℕ) (terminalId : ℤ) : WindowTable W × ℤ :=
  if (s.findWindowIdx (some win)).isSome then (s, -1)
  else
    match s.findWindowIdx none with
    | none => (s, -1)
    | some idx =>
      ({ s with
          fields := Function.update s.fields win {
            termX := guiWinInitialTermX + guiWinInitialOffsetX * idx
            termY := guiWinInitialTermY + guiWinInitialOffsetY * idx
            screenChar := screenBuf
            terminalId := terminalId }
          windowStack := s.windowStack.set idx (some win) }, 0)

/-- `gui_activate_window`. -/
def guiActivateWindow (win : W) : WindowTable W × ℤ :=
  match s.findWindowIdx (some win) with
  | none => (s, -1)
  | some idx =>
    if s.windowStack.getD 0 none = some win then (s, 0)
    else
      ({ s with
          windowStack := (moveDown idx s.windowStack).set 0 (some win)
          focusChanges := s.focusChanges ++ [(s.fields win).terminalId] }, 0)

/-- `gui_destroy_window`. -/
def guiDestroyWindow (win : W) : WindowTable W × ℤ :=
  match s.findWindowIdx (some win) with
  | none => (s, -1)
  | some idx =>
    ({ s with windowStack :=
        (moveUp (guiMaxWindowNum - 1 - idx) idx s.windowStack).set (guiMaxWindowNum - 1) none }, 0)

/-- One call: the state and the value returned. -/
def call : WindowCall W → WindowTable W × ℤ
  | .newWindow win screenBuf terminalId => s.guiNewWindow win screenBuf terminalId
  | .activate win => s.guiActivateWindow win
  | .destroy win => s.guiDestroyWindow win

/-- A sequence of calls. -/
def calls (cs : List (WindowCall W)) : WindowTable W := cs.foldl (fun s c => (s.call c).1) s

end Calls

end WindowTable

/-! ## The list -/

section Specification

variable {W : Type*} [DecidableEq W]

/-- What a call does to the list of windows, and what it returns. -/
def listCall (wins : List W) : WindowCall W → List W × ℤ
  | .newWindow win _ _ =>
    if win ∈ wins ∨ wins.length = guiMaxWindowNum then (wins, -1) else (wins ++ [win], 0)
  | .activate win => if win ∈ wins then (win :: wins.erase win, 0) else (wins, -1)
  | .destroy win => if win ∈ wins then (wins.erase win, 0) else (wins, -1)

/-- The list behind a sequence of calls. -/
def listCalls (wins : List W) (cs : List (WindowCall W)) : List W :=
  cs.foldl (fun wins c => (listCall wins c).1) wins

end Specification

namespace WindowTable

variable {W : Type*} {s : WindowTable W} {wins : List W} {win : W}

/-- The array holds the windows of a list, and then only `NULL`s. -/
structure Holds (s : WindowTable W) (wins : List W) : Prop where
  stack : s.windowStack = wins.map some ++ List.replicate (guiMaxWindowNum - wins.length) none
  nodup : wins.Nodup
  length : wins.length ≤ guiMaxWindowNum

theorem holds_init (fields : W → WindowFields) : (init fields).Holds [] :=
  ⟨rfl, List.nodup_nil, Nat.zero_le _⟩

theorem Holds.length_stack (h : s.Holds wins) : s.windowStack.length = guiMaxWindowNum := by
  rw [h.stack, List.length_append, List.length_map, List.length_replicate]
  exact Nat.add_sub_cancel' h.length

theorem Holds.top (h : s.Holds wins) : s.windowStack.getD 0 none = wins.head? := by
  rw [h.stack]
  cases wins with
  | nil => rfl
  | cons w wins => rfl

variable [DecidableEq W]

theorem Holds.findWindowIdx_some (h : s.Holds wins) (win : W) :
    s.findWindowIdx (some win) = if win ∈ wins then some (wins.idxOf win) else none := by
  rw [findWindowIdx, h.stack, Gui.findIdx?_some]

theorem Holds.findWindowIdx_none (h : s.Holds wins) :
    s.findWindowIdx none = if wins.length = guiMaxWindowNum then none else some wins.length := by
  have hfull : guiMaxWindowNum - wins.length = 0 ↔ wins.length = guiMaxWindowNum := by
    have := h.length
    omega
  rw [findWindowIdx, h.stack, Gui.findIdx?_none]
  simp only [hfull]

/-- The array above and below a window that it holds. -/
theorem Holds.around (h : s.Holds wins) (hw : win ∈ wins) :
    wins.idxOf win < s.windowStack.length ∧
      s.windowStack.take (wins.idxOf win) = (wins.take (wins.idxOf win)).map some ∧
      s.windowStack.drop (wins.idxOf win + 1) = (wins.drop (wins.idxOf win + 1)).map some ++
        List.replicate (guiMaxWindowNum - wins.length) none := by
  have hlt := List.idxOf_lt_length_of_mem hw
  refine ⟨by rw [h.length_stack]; exact Nat.lt_of_lt_of_le hlt h.length, ?_, ?_⟩
  · rw [h.stack, List.take_append_of_le_length (by simpa using hlt.le), List.map_take]
  · rw [h.stack, List.drop_append_of_le_length (by simpa using hlt), List.map_drop]

/-- What is behind a call: the list of the specification, its value, and no field changed but
those of a new window. -/
structure Does (s : WindowTable W) (wins : List W) (c : WindowCall W) : Prop where
  holds : (s.call c).1.Holds (listCall wins c).1
  ret : (s.call c).2 = (listCall wins c).2
  failed : (s.call c).2 ≠ 0 → (s.call c).1 = s
  fields : ∀ w, (∀ screenBuf terminalId, c ≠ .newWindow w screenBuf terminalId) →
    (s.call c).1.fields w = s.fields w

/-- A call that fails. -/
theorem Holds.does_failed (h : s.Holds wins) {c : WindowCall W} (hs : s.call c = (s, -1))
    (hl : listCall wins c = (wins, -1)) : s.Does wins c := by
  refine ⟨?_, ?_, fun _ => ?_, fun w _ => ?_⟩
  · rw [hs, hl]
    exact h
  · rw [hs, hl]
  · rw [hs]
  · rw [hs]

theorem Holds.newWindow (h : s.Holds wins) (win : W) (screenBuf : ℕ) (terminalId : ℤ) :
    s.Does wins (.newWindow win screenBuf terminalId) := by
  by_cases hw : win ∈ wins
  · refine h.does_failed ?_ (if_pos (Or.inl hw))
    have hfind : (s.findWindowIdx (some win)).isSome = true := by
      rw [h.findWindowIdx_some, if_pos hw]
      rfl
    exact if_pos hfind
  have habsent : ¬ (s.findWindowIdx (some win)).isSome = true := by
    rw [h.findWindowIdx_some, if_neg hw]
    exact Bool.false_ne_true
  by_cases hfull : wins.length = guiMaxWindowNum
  · refine h.does_failed ?_ (if_pos (Or.inr hfull))
    show s.guiNewWindow win screenBuf terminalId = (s, -1)
    rw [guiNewWindow, if_neg habsent, h.findWindowIdx_none, if_pos hfull]
  · -- the window goes to the first free entry
    have hcall : s.call (.newWindow win screenBuf terminalId) =
        ({ s with
            fields := Function.update s.fields win {
              termX := guiWinInitialTermX + guiWinInitialOffsetX * wins.length
              termY := guiWinInitialTermY + guiWinInitialOffsetY * wins.length
              screenChar := screenBuf
              terminalId := terminalId }
            windowStack := s.windowStack.set wins.length (some win) }, 0) := by
      show s.guiNewWindow win screenBuf terminalId = _
      rw [guiNewWindow, if_neg habsent, h.findWindowIdx_none, if_neg hfull]
    have hlist : listCall wins (.newWindow win screenBuf terminalId) = (wins ++ [win], 0) :=
      if_neg (not_or.mpr ⟨hw, hfull⟩)
    have hlt : wins.length < guiMaxWindowNum := Nat.lt_of_le_of_ne h.length hfull
    refine ⟨?_, ?_, fun hne => absurd (by rw [hcall]) hne, fun w hother => ?_⟩
    · rw [hcall, hlist]
      refine ⟨?_, ?_, ?_⟩
      · obtain ⟨n, hn⟩ := Nat.exists_eq_succ_of_ne_zero (Nat.sub_ne_zero_of_lt hlt)
        have hlen : guiMaxWindowNum - (wins ++ [win]).length = n := by
          rw [List.length_append, List.length_singleton]
          omega
        show s.windowStack.set wins.length (some win) = _
        rw [hlen, h.stack, hn, List.replicate_succ, List.set_append_right _ _ (by simp)]
        simp
      · rw [← List.concat_eq_append]
        exact h.nodup.concat hw
      · rw [List.length_append, List.length_singleton]
        exact hlt
    · rw [hcall, hlist]
    · have hne : w ≠ win := by
        rintro rfl
        exact hother screenBuf terminalId rfl
      rw [hcall]
      exact Function.update_of_ne hne _ _

theorem Holds.activate (h : s.Holds wins) (win : W) : s.Does wins (.activate win) := by
  have hfind := h.findWindowIdx_some win
  by_cases hw : win ∈ wins
  · rw [if_pos hw] at hfind
    have hlist : listCall wins (.activate win) = (win :: wins.erase win, 0) := if_pos hw
    by_cases htop : s.windowStack.getD 0 none = some win
    · -- the window is on top
      have hcall : s.call (.activate win) = (s, 0) := by
        show s.guiActivateWindow win = _
        rw [guiActivateWindow, hfind]
        exact if_pos htop
      have hfront : win :: wins.erase win = wins := by
        rw [h.top] at htop
        obtain ⟨ws, rfl⟩ := List.head?_eq_some_iff.mp htop
        rw [List.erase_cons_head]
      refine ⟨?_, ?_, fun _ => ?_, fun w _ => ?_⟩
      · rw [hcall, hlist, hfront]
        exact h
      · rw [hcall, hlist]
      · rw [hcall]
      · rw [hcall]
    · have hcall : s.call (.activate win) =
          ({ s with
              windowStack := (moveDown (wins.idxOf win) s.windowStack).set 0 (some win)
              focusChanges := s.focusChanges ++ [(s.fields win).terminalId] }, 0) := by
        show s.guiActivateWindow win = _
        rw [guiActivateWindow, hfind]
        exact if_neg htop
      obtain ⟨hlt, htake, hdrop⟩ := h.around hw
      have hlen : (win :: wins.erase win).length = wins.length := by
        rw [List.length_cons, List.length_erase_of_mem hw]
        exact Nat.sub_add_cancel (List.length_pos_of_mem hw)
      refine ⟨?_, ?_, fun hne => absurd (by rw [hcall]) hne, fun w _ => by rw [hcall]⟩
      · rw [hcall, hlist]
        refine ⟨?_, List.nodup_cons.mpr ⟨h.nodup.not_mem_erase, h.nodup.erase win⟩, ?_⟩
        · show (moveDown (wins.idxOf win) s.windowStack).set 0 (some win) = _
          rw [moveDown_set hlt, htake, hdrop, hlen, List.map_cons, ← Gui.erase_eq wins win,
            List.map_append, List.cons_append, List.cons_append, List.append_assoc]
        · rw [hlen]
          exact h.length
      · rw [hcall, hlist]
  · refine h.does_failed ?_ (if_neg hw)
    show s.guiActivateWindow win = _
    rw [guiActivateWindow, hfind, if_neg hw]

theorem Holds.destroy (h : s.Holds wins) (win : W) : s.Does wins (.destroy win) := by
  have hfind := h.findWindowIdx_some win
  by_cases hw : win ∈ wins
  · rw [if_pos hw] at hfind
    have hlist : listCall wins (.destroy win) = (wins.erase win, 0) := if_pos hw
    have hcall : s.call (.destroy win) =
        ({ s with
            windowStack := List.set
              (moveUp (guiMaxWindowNum - 1 - wins.idxOf win) (wins.idxOf win) s.windowStack)
              (guiMaxWindowNum - 1) none }, 0) := by
      show s.guiDestroyWindow win = _
      rw [guiDestroyWindow, hfind]
    obtain ⟨hlt, htake, hdrop⟩ := h.around hw
    have hpos := List.length_pos_of_mem hw
    have hle := h.length
    have herase := List.length_erase_of_mem hw
    refine ⟨?_, ?_, fun hne => absurd (by rw [hcall]) hne, fun w _ => by rw [hcall]⟩
    · rw [hcall, hlist]
      refine ⟨?_, h.nodup.erase win, Nat.le_trans (List.erase_sublist.length_le) hle⟩
      have hfree : guiMaxWindowNum - (wins.erase win).length =
        guiMaxWindowNum - wins.length + 1 := by
        omega
      have hloop := moveUp_set hlt
      rw [h.length_stack, htake, hdrop] at hloop
      show (moveUp _ _ s.windowStack).set _ none = _
      rw [hloop, hfree, List.replicate_succ', ← Gui.erase_eq wins win, List.map_append,
        List.append_assoc, List.append_assoc, List.append_assoc]
    · rw [hcall, hlist]
  · refine h.does_failed ?_ (if_neg hw)
    show s.guiDestroyWindow win = _
    rw [guiDestroyWindow, hfind, if_neg hw]

/-- One call on an array that holds a list. -/
theorem Holds.does (h : s.Holds wins) (c : WindowCall W) : s.Does wins c := by
  cases c with
  | newWindow win screenBuf terminalId => exact h.newWindow win screenBuf terminalId
  | activate win => exact h.activate win
  | destroy win => exact h.destroy win

theorem Holds.calls (cs : List (WindowCall W)) : ∀ {s : WindowTable W} {wins : List W},
    s.Holds wins → (s.calls cs).Holds (listCalls wins cs) := by
  induction cs with
  | nil =>
    intro s wins h
    exact h
  | cons c cs ih =>
    intro s wins h
    exact ih (h.does c).holds

/-- **The window stack is an ordered list** behind every sequence of calls, and every further
call does to the array what it does to the list. -/
theorem windowStack_list (fields : W → WindowFields) (cs : List (WindowCall W)) :
    ((init fields).calls cs).Holds (listCalls [] cs) ∧
      ∀ c, ((init fields).calls cs).Does (listCalls [] cs) c := by
  have h := (holds_init fields).calls cs
  exact ⟨h, h.does⟩

end WindowTable

/-! ## The windows of the kernel -/

namespace Gui

variable {g : Gui} {wins : List TermId} {t : TermId} {idx : ℕ}

/-- Raising a window in the kernel is the loop of `gui_activate_window`. -/
theorem raise_eq_moveDown (h : idx < g.windowStack.length) (t : TermId) :
    (g.raise idx t).windowStack = (moveDown idx g.windowStack).set 0 (some t) :=
  (moveDown_set h (some t)).symm

/-- Removing a window in the kernel is the loop of `gui_destroy_window`. -/
theorem remove_eq_moveUp (h : idx < g.windowStack.length)
    (hlen : g.windowStack.length = guiMaxWindowNum) :
    (g.remove idx).windowStack =
      (moveUp (guiMaxWindowNum - 1 - idx) idx g.windowStack).set (guiMaxWindowNum - 1) none := by
  rw [← hlen]
  exact (moveUp_set h).symm

end Gui

end AuroraOS
