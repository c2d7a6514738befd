/-
# The window stack as a list

`window_stack` is a list of distinct windows followed by `NULL`s, and the operations of
`gui_window.c` are the operations of that list.  In the kernel the listed windows are
those of the valid terminals, so a new window always finds a place.
-/
import AuroraOS.Task

namespace AuroraOS

namespace Gui

/-- The window stack holds exactly these windows, from the top. -/
structure Holds (g : Gui) (wins : List TermId) : Prop where
  stack : g.windowStack = wins.map some ++ List.replicate (guiMaxWindowNum - wins.length) none
  nodup : wins.Nodup

variable {g : Gui} {wins : List TermId} {t : TermId}

theorem Holds.length_le (h : g.Holds wins) : wins.length ≤ guiMaxWindowNum := by
  simpa using h.nodup.length_le_card

theorem Holds.top (h : g.Holds wins) : g.windowStack.headD none = wins.head? := by
  rw [h.stack]
  cases wins with
  | nil => rfl
  | cons t wins => rfl

theorem Holds.mem_windowStack (h : g.Holds wins) (t : TermId) :
    some t ∈ g.windowStack ↔ t ∈ wins := by
  rw [h.stack, List.mem_append, List.mem_map]
  constructor
  · rintro (⟨u, hu, he⟩ | hm)
    · exact Option.some.inj he ▸ hu
    · exact absurd (List.eq_of_mem_replicate hm) (Option.some_ne_none t)
  · exact fun ht => Or.inl ⟨t, ht, rfl⟩

theorem findIdx?_some {α : Type*} [DecidableEq α] (wins : List α) (n : ℕ) (t : α) :
    (wins.map some ++ List.replicate n none).findIdx? (· = some t)
      = if t ∈ wins then some (wins.idxOf t) else none := by
  induction wins with
  | nil => simp [List.findIdx?_replicate]
  | cons u wins ih =>
    rw [List.map_cons, List.cons_append, List.findIdx?_cons, ih]
    by_cases hu : u = t
    · simp [hu]
    · have htu : t ≠ u := fun h => hu h.symm
      by_cases hm : t ∈ wins
      · simp [hu, hm, List.idxOf_cons_ne _ hu]
      · simp [hu, htu, hm]

theorem findIdx?_none {α : Type*} [DecidableEq α] (wins : List α) (n : ℕ) :
    (wins.map some ++ List.replicate n none).findIdx? (· = none)
      = if n = 0 then none else some wins.length := by
  induction wins with
  | nil =>
    cases n with
    | zero => rfl
    | succ n => rw [List.replicate_succ, List.map_nil, List.nil_append, List.findIdx?_cons]; simp
  | cons u wins ih =>
    rw [List.map_cons, List.cons_append, List.findIdx?_cons, ih]
    by_cases hn : n = 0
    · simp [hn]
    · simp [hn]

theorem Holds.findWindowIdx_some (h : g.Holds wins) (t : TermId) :
    g.findWindowIdx (some t) = if t ∈ wins then some (wins.idxOf t) else none := by
  rw [findWindowIdx, h.stack, findIdx?_some]

/-- The list without the window at the index of `t`. -/
theorem erase_eq {α : Type*} [DecidableEq α] (wins : List α) (t : α) :
    wins.take (wins.idxOf t) ++ wins.drop (wins.idxOf t + 1) = wins.erase t := by
  rw [← List.eraseIdx_eq_take_drop_succ, List.eraseIdx_idxOf_eq_erase]

theorem take_stack (h : g.Holds wins) (ht : t ∈ wins) :
    g.windowStack.take (wins.idxOf t) = (wins.take (wins.idxOf t)).map some := by
  have hlt := List.idxOf_lt_length_of_mem ht
  rw [h.stack, List.take_append_of_le_length (by simpa using hlt.le), List.map_take]

theorem drop_stack (h : g.Holds wins) (ht : t ∈ wins) :
    g.windowStack.drop (wins.idxOf t + 1) = (wins.drop (wins.idxOf t + 1)).map some ++
      List.replicate (guiMaxWindowNum - wins.length) none := by
  have hlt := List.idxOf_lt_length_of_mem ht
  rw [h.stack, List.drop_append_of_le_length (by simpa using hlt), List.map_drop]

/-- Raising a window moves it to the front of the list. -/
theorem Holds.raise (h : g.Holds wins) (ht : t ∈ wins) :
    (g.raise (wins.idxOf t) t).Holds (t :: wins.erase t) where
  stack := by
    have hlen : (t :: wins.erase t).length = wins.length := by
      rw [List.length_cons, List.length_erase_of_mem ht]
      have := List.length_pos_of_mem ht
      omega
    rw [hlen, List.map_cons, ← erase_eq wins t, List.map_append, List.cons_append,
      List.append_assoc,
      ← drop_stack h ht, ← take_stack h ht]
    rfl
  nodup := List.nodup_cons.mpr ⟨h.nodup.not_mem_erase, h.nodup.erase t⟩

/-- Destroying a window takes it out of the list. -/
theorem Holds.destroyWindow (h : g.Holds wins) (t : TermId) :
    (g.destroyWindow t).Holds (wins.erase t) := by
  by_cases ht : t ∈ wins
  · refine ⟨?_, h.nodup.erase t⟩
    have hpos := List.length_pos_of_mem ht
    have hle := h.length_le
    have hlen : guiMaxWindowNum - (wins.erase t).length = guiMaxWindowNum - wins.length + 1 := by
      rw [List.length_erase_of_mem ht]
      omega
    rw [hlen, List.replicate_succ', ← erase_eq wins t, List.map_append, List.append_assoc,
      ← List.append_assoc _ _ [none], ← drop_stack h ht, ← take_stack h ht, ← List.append_assoc]
    rw [Gui.destroyWindow, h.findWindowIdx_some, if_pos ht]
    rfl
  · rw [List.erase_of_not_mem ht, Gui.destroyWindow, h.findWindowIdx_some, if_neg ht]
    exact h

/-- A new window goes behind the others. -/
theorem Holds.put (h : g.Holds wins) (ht : t ∉ wins) (hlt : wins.length < guiMaxWindowNum) :
    g.findWindowIdx none = some wins.length ∧ (g.put wins.length t).Holds (wins ++ [t]) := by
  obtain ⟨n, hn⟩ := Nat.exists_eq_succ_of_ne_zero (Nat.sub_ne_zero_of_lt hlt)
  refine ⟨?_, ?_, ?_⟩
  · rw [findWindowIdx, h.stack, findIdx?_none, hn, if_neg (Nat.succ_ne_zero n)]
  · have hlen : guiMaxWindowNum - (wins ++ [t]).length = n := by
      rw [List.length_append, List.length_singleton]
      omega
    rw [hlen]
    show g.windowStack.set wins.length (some t) = _
    rw [h.stack, hn, List.replicate_succ, List.set_append_right _ _ (by simp)]
    simp
  · exact List.nodup_append.mpr ⟨h.nodup, List.nodup_singleton t, by
      rintro a ha b hb rfl
      exact ht (List.mem_singleton.mp hb ▸ ha)⟩

theorem Holds.fits (h : g.Holds wins) (ht : g.findWindowIdx (some t) = none) :
    t ∉ wins ∧ g.findWindowIdx none = some wins.length := by
  have hn : t ∉ wins := by
    rw [h.findWindowIdx_some] at ht
    by_contra hm
    simp [hm] at ht
  have hlt : wins.length < guiMaxWindowNum := by
    have := (List.nodup_cons.mpr ⟨hn, h.nodup⟩).length_le_card
    simpa using this
  exact ⟨hn, (h.put hn hlt).1⟩

/-- Destroying the last new window brings the stack back. -/
theorem Holds.destroyWindow_put (h : g.Holds wins) (ht : g.findWindowIdx (some t) = none) {idx : ℕ}
    (hidx : g.findWindowIdx none = some idx) : (g.put idx t).destroyWindow t = g := by
  obtain ⟨hn, hlen⟩ := h.fits ht
  obtain rfl : idx = wins.length := Option.some.inj (hidx.symm.trans hlen)
  have hlt : wins.length < guiMaxWindowNum := by
    have := (List.nodup_cons.mpr ⟨hn, h.nodup⟩).length_le_card
    simpa using this
  have hd := ((h.put hn hlt).2.destroyWindow t).stack
  rw [List.erase_append_right _ hn, List.erase_cons_head, List.append_nil, ← h.stack] at hd
  obtain ⟨stack, title, button, count⟩ := g
  unfold Gui.destroyWindow at hd ⊢
  cases hf : (Gui.put ⟨stack, title, button, count⟩ wins.length t).findWindowIdx (some t) with
  | none =>
    rw [hf] at hd
    exact congrArg (Gui.mk · title button count) hd
  | some i =>
    rw [hf] at hd
    exact congrArg (Gui.mk · title button count) hd

end Gui

namespace Kernel

/-- The windows on the stack are those of the valid terminals, and know their terminals. -/
def Windowed (k : Kernel) : Prop :=
  ∃ wins, k.gui.Holds wins ∧ (∀ t, t ∈ wins ↔ (k.term (some t)).valid = true) ∧
    ∀ t ∈ wins, (k.term (some t)).win.terminalId = t

/-- Only the windows and the validity of the terminals count. -/
theorem Windowed.congr {k k' : Kernel} (h : k.Windowed)
    (hg : k'.gui.windowStack = k.gui.windowStack)
    (ht : ∀ t, (k'.term (some t)).valid = (k.term (some t)).valid ∧
      (k'.term (some t)).win.terminalId = (k.term (some t)).win.terminalId) : k'.Windowed := by
  obtain ⟨wins, hw, hmem, hid⟩ := h
  refine ⟨wins, ⟨hg.trans hw.stack, hw.nodup⟩, fun t => ?_, fun t hm => ?_⟩
  · rw [hmem, (ht t).1]
  · rw [(ht t).2, hid t hm]

theorem Windowed.terminalId {k : Kernel} (h : k.Windowed) {t : TermId}
    (ht : k.gui.findWindowIdx (some t) ≠ none) : (k.term (some t)).win.terminalId = t := by
  obtain ⟨wins, hw, _, hid⟩ := h
  rw [hw.findWindowIdx_some] at ht
  by_contra hne
  exact ht (if_neg fun hm => hne (hid t hm))

/-- Another video memory of the kernel, and another running terminal. -/
def mapped (k : Kernel) (v : Pde4kB) (r : Option TermId) : Kernel :=
  { k with vidmem := { k.vidmem with vramEntry := v }, runningTerm := r }

theorem mapped_self (k : Kernel) : k.mapped k.vidmem.vramEntry k.runningTerm = k := rfl

@[simp] theorem mapped_mapped (k : Kernel) (v v' : Pde4kB) (r r' : Option TermId) :
    (k.mapped v r).mapped v' r' = k.mapped v' r' := rfl

/-- `terminal_set_running` only touches the video memory of the kernel. -/
theorem terminalSetRunning_eq (k : Kernel) (t : Option TermId) :
    ∃ v r, k.terminalSetRunning t = k.mapped v r := by
  unfold terminalSetRunning
  by_cases h : k.runningTerm = t
  · exact ⟨_, _, (if_pos h).trans k.mapped_self.symm⟩
  · rw [if_neg h]
    unfold Vidmem.terminalVidmemSet
    cases t with
    | none => exact ⟨_, _, rfl⟩
    | some i =>
      by_cases ho : k.vidmem.terminalOpened i
      · exact ⟨setPDE4kB (.kernelVideoMemory i) true false true, some i, by simp [ho, mapped]⟩
      · exact ⟨k.vidmem.vramEntry, some i, by simp [ho, mapped]⟩

theorem terminalFocusPrintf_eq (k : Kernel) : ∃ v r, k.terminalFocusPrintf = k.mapped v r := by
  unfold terminalFocusPrintf
  cases hf : k.focusTask with
  | none => exact ⟨_, _, k.mapped_self.symm⟩
  | some f =>
    obtain ⟨v, r, h⟩ := k.terminalSetRunning_eq (k.task f).terminal
    obtain ⟨v', r', h'⟩ := (k.mapped v r).terminalSetRunning_eq k.runningTerm
    exact ⟨v', r', by simp only [h, h', mapped_mapped]⟩

/-- `task_change_focus` sets the focus to a foreground task, or leaves it. -/
theorem taskChangeFocus_eq (k : Kernel) (t : TermId) :
    ∃ v r, k.taskChangeFocus t
      = { k.mapped v r with focusTask := (k.terminalFgTask t).or k.focusTask } := by
  unfold taskChangeFocus
  cases k.terminalFgTask t with
  | none =>
    obtain ⟨v, r, h⟩ := k.terminalFocusPrintf_eq
    exact ⟨v, r, h⟩
  | some x => exact ⟨k.vidmem.vramEntry, k.runningTerm, rfl⟩

/-! ## Activation -/

/-- The windows behind `gui_activate_window` of the terminal, if there is one. -/
def activated (g : Gui) : Option TermId → Gui
  | none => g
  | some t =>
    match g.findWindowIdx (some t) with
    | none => g
    | some idx => if g.windowStack.headD none = some t then g else g.raise idx t

theorem activated_title (g : Gui) (o : Option TermId) :
    (activated g o).mousePressedOnTitle = g.mousePressedOnTitle := by
  cases o with
  | none => rfl
  | some t =>
    unfold activated
    simp only
    split
    · rfl
    · split <;> rfl

/-- A window that is on the stack comes to the top. -/
theorem activated_top {g : Gui} {wins : List TermId} (h : g.Holds wins) (t : TermId) :
    (activated g (some t)).windowStack.headD none
      = if t ∈ wins then some t else g.windowStack.headD none := by
  unfold activated
  simp only [h.findWindowIdx_some]
  by_cases ht : t ∈ wins
  · rw [if_pos ht, if_pos ht]
    simp only
    split
    · assumption
    · rfl
  · rw [if_neg ht, if_neg ht]

theorem taskChangeFocus_gui (k : Kernel) (t : TermId) : (k.taskChangeFocus t).gui = k.gui := by
  obtain ⟨v, r, h⟩ := k.taskChangeFocus_eq t
  rw [h]
  rfl

theorem guiActivateWindow_gui (k : Kernel) (t : TermId) :
    (k.guiActivateWindow t).gui = activated k.gui (some t) := by
  unfold guiActivateWindow activated
  cases hidx : k.gui.findWindowIdx (some t) with
  | none => simp only [hidx]
  | some idx =>
    simp only [hidx]
    split
    · rfl
    · exact taskChangeFocus_gui { k with gui := k.gui.raise idx t } _

/-- **What `gui_activate_window` does**: it moves the window to the top, and the focus to the
foreground task of the terminal that the window names. -/
theorem guiActivateWindow_eq (k : Kernel) (t : TermId) :
    ∃ g f v r, k.guiActivateWindow t = { k.mapped v r with gui := g, focusTask := f } ∧
      (f = k.focusTask ∧ g = k.gui ∨ k.gui.findWindowIdx (some t) ≠ none ∧
        f = (k.terminalFgTask (k.term (some t)).win.terminalId).or k.focusTask ∧
        g.windowStack.headD none = some t) ∧
      ∀ wins, k.gui.Holds wins → ∃ wins', g.Holds wins' ∧ ∀ u, u ∈ wins' ↔ u ∈ wins := by
  have hsame : ∃ g f v r, k = { k.mapped v r with gui := g, focusTask := f } ∧
      (f = k.focusTask ∧ g = k.gui ∨ k.gui.findWindowIdx (some t) ≠ none ∧
        f = (k.terminalFgTask (k.term (some t)).win.terminalId).or k.focusTask ∧
        g.windowStack.headD none = some t) ∧
      ∀ wins, k.gui.Holds wins → ∃ wins', g.Holds wins' ∧ ∀ u, u ∈ wins' ↔ u ∈ wins :=
    ⟨k.gui, k.focusTask, k.vidmem.vramEntry, k.runningTerm, rfl, Or.inl ⟨rfl, rfl⟩,
      fun wins h => ⟨wins, h, fun _ => Iff.rfl⟩⟩
  cases hf : k.gui.findWindowIdx (some t) with
  | none =>
    have hk : k.guiActivateWindow t = k := by simp [guiActivateWindow, hf]
    rw [hf] at hsame
    rw [hk]
    exact hsame
  | some idx =>
    by_cases htop : k.gui.windowStack.headD none = some t
    · have hk : k.guiActivateWindow t = k := by simp only [guiActivateWindow, hf, if_pos htop]
      rw [hf] at hsame
      rw [hk]
      exact hsame
    · have hk : k.guiActivateWindow t = { k with gui := k.gui.raise idx t }.taskChangeFocus
          (k.term (some t)).win.terminalId := by
        simp only [guiActivateWindow, hf, if_neg htop]
      rw [hk]
      obtain ⟨v, r, h⟩ := taskChangeFocus_eq { k with gui := k.gui.raise idx t }
        (k.term (some t)).win.terminalId
      refine ⟨k.gui.raise idx t, _, v, r, h, Or.inr ⟨by simp, rfl, rfl⟩, ?_⟩
      intro wins hw
      have hm : t ∈ wins ∧ wins.idxOf t = idx := by
        rw [hw.findWindowIdx_some] at hf
        by_cases hm : t ∈ wins
        · exact ⟨hm, by simpa [hm] using hf⟩
        · simp [hm] at hf
      refine ⟨_, hm.2 ▸ hw.raise hm.1, fun u => ?_⟩
      rw [List.mem_cons, hw.nodup.mem_erase_iff]
      constructor
      · rintro (rfl | h)
        · exact hm.1
        · exact h.2
      · intro hu
        by_cases hut : u = t
        · exact Or.inl hut
        · exact Or.inr ⟨hut, hu⟩

end Kernel

end AuroraOS
