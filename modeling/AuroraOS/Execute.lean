/-
# What `system_execute` does

Each stage of `system_execute` is described once: where it returns -1 and in which
state, and what it has set when it goes on.  Nothing behind this module unfolds the
stages again.
-/
import AuroraOS.Windows
import AuroraOS.Machine

namespace AuroraOS

open Ring Machine

/-! ## Page ids -/

/-- The page id `i` is in use, and its frame is mapped. -/
def Paging.allocated (p : Paging) (i : Fin 10) : Paging :=
  { p.taskSetImgPaging i.val with
    pageIdRunning := Function.update p.pageIdRunning i true
    pageIdCount := p.pageIdCount + 1 }

theorem Paging.allocateAndSet_cases (p : Paging) (img : FsImage) (name : List UInt8)
    (stack : ℕ → UInt8) :
    (∃ n < 0, p.taskPagingAllocateAndSet img name stack = (p, n)) ∨
      ∃ i, p.taskGetFreePageId = some i ∧
        p.taskPagingAllocateAndSet img name stack = (p.allocated i, (i.val : ℤ)) := by
  unfold taskPagingAllocateAndSet
  cases img.readDentryByName name with
  | none => exact Or.inl ⟨-1, by decide, rfl⟩
  | some task =>
    simp only
    by_cases hexe : img.taskIsExecutable task stack = true
    · rw [if_neg (by simpa using hexe)]
      cases hfree : p.taskGetFreePageId with
      | none => exact Or.inl ⟨-1, by decide, rfl⟩
      | some i =>
        simp only
        by_cases heip : img.taskGetEip task = -1
        · exact Or.inl ⟨-2, by decide, if_pos heip⟩
        · exact Or.inr ⟨i, rfl, if_neg heip⟩
    · exact Or.inl ⟨-1, by decide, if_pos (by simpa using hexe)⟩

namespace Kernel

variable {k k' : Kernel} {a : ExecuteArgs} {x : TaskId}

/-! ## The slot -/

/-- The tasks that are valid. -/
def live (k : Kernel) : Finset TaskId := Finset.univ.filter fun x => (k.task x).valid

theorem mem_live : x ∈ k.live ↔ (k.task x).valid = true := by
  simp [live]

/-- The kernel in which phase 1 starts. -/
def allocated (k : Kernel) (x : TaskId) : Kernel :=
  { k.modifyTask x fun t => { t with valid := true } with taskCount := k.taskCount + 1 }

/-- With a right `task_count` a slot is found unless all are in use. -/
theorem taskAllocateNewSlot_cases (hc : k.taskCount = k.live.card) :
    (10 ≤ k.taskCount ∧ k.taskAllocateNewSlot = (k, none)) ∨
      (k.taskCount < 10 ∧ ∃ x, (k.task x).valid = false ∧
        k.taskAllocateNewSlot = (k.allocated x, some x)) := by
  unfold taskAllocateNewSlot
  by_cases hfull : k.taskCount ≥ taskMaxCount
  · exact Or.inl ⟨hfull, if_pos hfull⟩
  · rw [if_neg hfull]
    refine Or.inr ⟨Nat.not_le.mp hfull, ?_⟩
    simp only
    cases hf : (List.finRange 10).find? fun x => !(k.task x).valid with
    | some x => exact ⟨x, by simpa using List.find?_some hf, rfl⟩
    | none =>
      rw [List.find?_eq_none] at hf
      have hall : k.live = Finset.univ := by
        ext y
        simpa [mem_live] using hf y (List.mem_finRange y)
      rw [hc, hall] at hfull
      exact absurd (by decide) hfull

/-! ## Phase 1 -/

/-- `new task will inherit non-NULL terminal from running task, so parent must wait`. -/
def Refused (k : Kernel) (a : ExecuteArgs) : Prop :=
  k.taskCount ≠ 0 ∧ a.wait = 0 ∧ a.newTerminal = false ∧ k.runningTask.terminal ≠ none

/-- The other requests that phase 1 turns down. -/
def Rejected (k : Kernel) (a : ExecuteArgs) : Prop :=
  k.taskCount = 0 ∧ a.wait = 1 ∨ a.kernelTask = true ∧ a.wait = 1 ∨
    a.kernelTask = true ∧ a.newTerminal = true ∨ a.wait = -1 ∧ a.kernelTask = false

instance : Decidable (k.Refused a) := inferInstanceAs (Decidable (_ ∧ _ ∧ _ ∧ _))

instance : Decidable (k.Rejected a) := inferInstanceAs (Decidable (_ ∨ _ ∨ _ ∨ _))

/-- The flags of a new task, but for the terminal owner. -/
def newFlags (k : Kernel) (a : ExecuteArgs) : TaskFlags where
  initTask := k.taskCount == 0
  kernelTask := a.kernelTask
  idleTask := a.wait == -1

/-- The parent of a new task. -/
def newParent (k : Kernel) (a : ExecuteArgs) : Option TaskId :=
  if k.taskCount ≠ 0 ∧ a.wait = 1 then some k.running else none

/-- Two updates of one task. -/
@[simp] theorem modifyTask_modifyTask (k : Kernel) (x : TaskId) (f g : Task → Task) :
    (k.modifyTask x f).modifyTask x g = k.modifyTask x fun t => g (f t) := by
  simp [modifyTask]

/-- **The outcomes of the tests of phase 1.** -/
theorem executeFlags_cases (k : Kernel) (a : ExecuteArgs) (x : TaskId) :
    (¬ k.Refused a ∧ ¬ k.Rejected a ∧ (k.allocated x).executeFlags a x
        = .ok ((k.allocated x).modifyTask x fun t => { t with
            flags := k.newFlags a, parent := k.newParent a })) ∨
      (k.Refused a ∧ ∃ f, (k.allocated x).executeFlags a x
        = .error ((k.allocated x).modifyTask x f) ∧ ∀ t, (f t).valid = t.valid) ∨
      (¬ k.Refused a ∧ k.Rejected a ∧ ∃ f, (k.allocated x).executeFlags a x
        = .error (((k.allocated x).modifyTask x f).taskDeallocate x)) := by
  have hterm : ∀ f : Task → Task, (∀ t, (f t).terminal = t.terminal) →
      ((k.allocated x).modifyTask x f).runningTask.terminal = k.runningTask.terminal := by
    intro f hf
    by_cases hx : k.running = x
    · simp [allocated, runningTask, hx, hf]
    · simp [allocated, runningTask, hx]
  have hinit : ((k.allocated x).taskCount == 1) = (k.taskCount == 0) := by
    simp [allocated]
  have hrun : (k.allocated x).running = k.running := rfl
  unfold executeFlags
  simp only [hinit, hrun, modifyTask_modifyTask]
  by_cases h1 : k.taskCount = 0 ∧ a.wait = 1
  · refine Or.inr (Or.inr ⟨fun h => h.1 h1.1, Or.inl h1, fun t => { t with
      flags := { initTask := true }, parent := none }, ?_⟩)
    rw [if_pos (by simpa using h1)]
  rw [if_neg (by simpa using h1), hterm (fun t => { t with
    flags := { initTask := k.taskCount == 0 }
    parent := if !(k.taskCount == 0) && a.wait == 1 then some k.running else none }) (fun _ => rfl)]
  by_cases h2 : k.Refused a
  · refine Or.inr (Or.inl ⟨h2, fun t => { t with
      flags := { initTask := k.taskCount == 0 }
      parent := if !(k.taskCount == 0) && a.wait == 1 then some k.running else none }, ?_,
      fun _ => rfl⟩)
    rw [if_pos (by simpa [Refused] using h2)]
  rw [if_neg (by simpa [Refused] using h2)]
  by_cases h3 : a.kernelTask = true ∧ a.wait = 1
  · rw [if_pos h3]
    exact Or.inr (Or.inr ⟨h2, Or.inr (Or.inl h3), _, rfl⟩)
  rw [if_neg h3]
  by_cases h4 : a.kernelTask = true ∧ a.newTerminal = true
  · rw [if_pos h4]
    exact Or.inr (Or.inr ⟨h2, Or.inr (Or.inr (Or.inl h4)), _, rfl⟩)
  rw [if_neg h4]
  by_cases h5 : a.wait = -1 ∧ a.kernelTask = false
  · rw [if_pos (by simpa using h5)]
    exact Or.inr (Or.inr ⟨h2, Or.inr (Or.inr (Or.inr h5)), _, rfl⟩)
  · rw [if_neg (by simpa using h5)]
    refine Or.inl ⟨h2, ?_, ?_⟩
    · rintro (h | h | h | h)
      · exact h1 h
      · exact h3 h
      · exact h4 h
      · exact h5 h
    · simp [newFlags, newParent]

/-! ## A request that leaves nothing behind -/

/-- Between the allocation of the slot `x` and its release only `x` has changed, and
what is not in use. -/
structure InSlot (x : TaskId) (k k' : Kernel) : Prop where
  running : k'.running = k.running
  eax : k'.eax = k.eax
  taskCount : k'.taskCount = k.taskCount + 1
  task : ∀ y, y ≠ x → k'.task y = k.task y
  links : ∀ n, n ≠ .item x → k'.links.next n = k.links.next n ∧ k'.links.prev n = k.links.prev n
  terminalFgTask : k'.terminalFgTask = k.terminalFgTask
  focusTask : k'.focusTask = k.focusTask
  runningTerm : k'.runningTerm = k.runningTerm
  paging : k'.paging = k.paging
  vidmem : k'.vidmem = k.vidmem
  gui : k'.gui = k.gui
  keyboard : k'.keyboard = k.keyboard
  mouse : k'.mouse = k.mouse
  term : ∀ t, (k.term t).valid = true → k'.term t = k.term t
  freeTerm : ∀ t, (k.term t).valid = false →
    (k'.term t).valid = false ∧ (k'.term t).userAskLen = (k.term t).userAskLen

/-- **Nothing that is in use has changed.** -/
structure Untouched (k k' : Kernel) : Prop where
  running : k'.running = k.running
  eax : k'.eax = k.eax
  taskCount : k'.taskCount = k.taskCount
  task : ∀ y, (k.task y).valid = true → k'.task y = k.task y
  free : ∀ y, (k.task y).valid = false → (k'.task y).valid = false
  links : ∀ n, (∀ y, n = .item y → (k.task y).valid = true) →
    k'.links.next n = k.links.next n ∧ k'.links.prev n = k.links.prev n
  terminalFgTask : k'.terminalFgTask = k.terminalFgTask
  focusTask : k'.focusTask = k.focusTask
  runningTerm : k'.runningTerm = k.runningTerm
  paging : k'.paging = k.paging
  vidmem : k'.vidmem = k.vidmem
  gui : k'.gui = k.gui
  keyboard : k'.keyboard = k.keyboard
  mouse : k'.mouse = k.mouse
  term : ∀ t, (k.term t).valid = true → k'.term t = k.term t
  freeTerm : ∀ t, (k.term t).valid = false →
    (k'.term t).valid = false ∧ (k'.term t).userAskLen = (k.term t).userAskLen

theorem Untouched.refl (k : Kernel) : Untouched k k := by
  constructor <;> simp

theorem inSlot_allocated (k : Kernel) (x : TaskId) : InSlot x k (k.allocated x) := by
  constructor <;> simp +contextual [allocated]

theorem InSlot.modifyTask (h : InSlot x k k') (f : Task → Task) :
    InSlot x k (k'.modifyTask x f) :=
  { h with task := fun y hy => by rw [modifyTask_task, Function.update_of_ne hy, h.task y hy] }

theorem InSlot.executeStrings (h : InSlot x k k') (a : ExecuteArgs) :
    InSlot x k (k'.executeStrings a x) :=
  { h.modifyTask fun t => { t with
      vidmapEnabled := false
      args := (executeParseCommand a.command).2 } with
    links := by
      intro n hn
      simp only [Kernel.executeStrings, Links.reset, setPrev_next, setNext_next, setPrev_prev,
        setNext_prev, Function.update_of_ne hn]
      exact h.links n hn }

/-- Giving the slot back undoes the request. -/
theorem InSlot.taskDeallocate (h : InSlot x k k') (hx : (k.task x).valid = false)
    (hc : k.taskCount < 10) : Untouched k (k'.taskDeallocate x) where
  running := h.running
  eax := h.eax
  taskCount := by
    show (k'.taskCount + (2 ^ 32 - 1)) % 2 ^ 32 = k.taskCount
    rw [h.taskCount]
    omega
  task := by
    intro y hy
    have hne : y ≠ x := by
      rintro rfl
      rw [hx] at hy
      cases hy
    exact (Function.update_of_ne hne _ _).trans (h.task y hne)
  free := by
    intro y hy
    by_cases hyx : y = x
    · subst hyx
      simp [Kernel.taskDeallocate]
    · simp [Kernel.taskDeallocate, Function.update_of_ne hyx, h.task y hyx, hy]
  links := by
    intro n hn
    apply h.links
    rintro rfl
    rw [hn x rfl] at hx
    cases hx
  terminalFgTask := h.terminalFgTask
  focusTask := h.focusTask
  runningTerm := h.runningTerm
  paging := h.paging
  vidmem := h.vidmem
  gui := h.gui
  keyboard := h.keyboard
  mouse := h.mouse
  term := h.term
  freeTerm := h.freeTerm

/-! ## The terminal of a new task -/

/-- The terminal that `terminal_allocate` finds. -/
def freeTerminal (k : Kernel) : Option TermId :=
  (List.finRange 5).find? fun t => !(k.term (some t)).valid

theorem freeTerminal_valid {t : TermId} (h : k.freeTerminal = some t) :
    (k.term (some t)).valid = false := by
  simpa using List.find?_some h

/-- `gui_new_window` finds a place for the window of this terminal. -/
def WindowFits (k : Kernel) (t : TermId) : Prop :=
  k.gui.findWindowIdx (some t) = none ∧ k.gui.findWindowIdx none ≠ none

instance (t : TermId) : Decidable (k.WindowFits t) := inferInstanceAs (Decidable (_ ∧ _))

theorem guiNewWindow_some {t : TermId} (h : k.WindowFits t) :
    ∃ idx, k.gui.findWindowIdx none = some idx ∧ k.guiNewWindow t =
      some { (k.modifyTerm (some t) fun term => { term with
        win := { termX := 50 + 50 * idx, termY := 50 + 50 * idx, terminalId := t } }) with
        gui := k.gui.put idx t } := by
  obtain ⟨idx, hidx⟩ := Option.ne_none_iff_exists'.mp h.2
  exact ⟨idx, hidx, by simp [guiNewWindow, h.1, hidx]⟩

theorem guiNewWindow_none {t : TermId} (h : ¬ k.WindowFits t) : k.guiNewWindow t = none := by
  unfold guiNewWindow
  by_cases hw : k.gui.findWindowIdx (some t) = none
  · have hn : k.gui.findWindowIdx none = none := by
      by_contra hn
      exact h ⟨hw, hn⟩
    simp [hw, hn]
  · simp [Option.isSome_iff_ne_none.mpr hw]

/-- The kernel in which `system_execute` asks for the window of the terminal `t`. -/
def windowless (k : Kernel) (x : TaskId) (t : TermId) : Kernel :=
  { (k.modifyTask x fun task => { task with
      flags := { task.flags with terminalOwner := true }, terminal := some t }).modifyTerm
        (some t) Terminal.allocate with
    vidmem := k.vidmem.terminalVidmemOpen t }

/-- The task `x` owns the terminal `t`, whose window is number `idx`. -/
def opened (k : Kernel) (x : TaskId) (t : TermId) (idx : ℕ) : Kernel :=
  { k.modifyTask x fun task => { task with
      flags := { task.flags with terminalOwner := true }, terminal := some t } with
    term := Function.update k.term (some t) { (k.term (some t)).allocate with
      win := { termX := 50 + 50 * idx, termY := 50 + 50 * idx, terminalId := t } }
    vidmem := k.vidmem.terminalVidmemOpen t
    gui := k.gui.put idx t }

/-- The terminal `t` has been given back, and the slot of `x` as well. -/
def unopened (k : Kernel) (x : TaskId) (t : TermId) : Kernel :=
  { k.modifyTask x fun task => { task with
      flags := { task.flags with terminalOwner := true }, terminal := some t, valid := false } with
    term := Function.update k.term (some t) { (k.term (some t)).allocate with valid := false }
    vidmem := (k.vidmem.terminalVidmemOpen t).terminalVidmemClose t
    taskCount := (k.taskCount + (2 ^ 32 - 1)) % 2 ^ 32 }

/-- **The outcomes of opening a terminal.** -/
theorem executeNewTerminal_cases (k : Kernel) (x : TaskId) :
    (k.freeTerminal = none ∧
      ∃ f, k.executeNewTerminal x = .error ((k.modifyTask x f).taskDeallocate x)) ∨
    ∃ t, k.freeTerminal = some t ∧
      ((k.WindowFits t ∧ ∃ idx, k.gui.findWindowIdx none = some idx ∧
          k.executeNewTerminal x = .ok (k.opened x t idx)) ∨
        (¬ k.WindowFits t ∧ k.executeNewTerminal x = .ok (k.unopened x t))) := by
  cases hf : k.freeTerminal with
  | none =>
    refine Or.inl ⟨rfl, fun t => { t with flags := { t.flags with terminalOwner := true } }, ?_⟩
    unfold freeTerminal at hf
    simp [executeNewTerminal, terminalAllocate, hf]
  | some t =>
    refine Or.inr ⟨t, rfl, ?_⟩
    have hrun : k.executeNewTerminal x =
        ((k.windowless x t).guiNewWindow t).elim (.ok (k.unopened x t)) .ok := by
      unfold freeTerminal at hf
      simp only [executeNewTerminal, terminalAllocate, hf, Option.map_some, unopened, windowless,
        taskDeallocate, terminalDeallocate, modifyTask, modifyTerm, Function.update_idem,
        Function.update_self]
      generalize Kernel.guiNewWindow _ t = g
      cases g <;> rfl
    rw [hrun]
    by_cases hw : k.WindowFits t
    · obtain ⟨idx, hidx, hnew⟩ := guiNewWindow_some (k := k.windowless x t) hw
      refine Or.inl ⟨hw, idx, hidx, ?_⟩
      rw [hnew]
      simp [opened, windowless, modifyTask, modifyTerm]
    · refine Or.inr ⟨hw, ?_⟩
      rw [guiNewWindow_none (k := k.windowless x t) hw, Option.elim_none]

theorem opened_windowed {k : Kernel} (h : k.Windowed) (x : TaskId) {t : TermId} {idx : ℕ}
    (hf : k.WindowFits t) (hidx : k.gui.findWindowIdx none = some idx) :
    (k.opened x t idx).Windowed := by
  obtain ⟨wins, hw, hmem, hid⟩ := h
  obtain ⟨hn, hlen⟩ := hw.fits hf.1
  obtain rfl : idx = wins.length := Option.some.inj (hidx.symm.trans hlen)
  have hlt : wins.length < guiMaxWindowNum := by
    have := (List.nodup_cons.mpr ⟨hn, hw.nodup⟩).length_le_card
    simpa using this
  refine ⟨wins ++ [t], (hw.put hn hlt).2, fun u => ?_, fun u hu => ?_⟩
  · by_cases hut : u = t
    · subst hut
      simp [opened, Terminal.allocate]
    · have hne : some u ≠ some t := by simpa using hut
      simp [opened, hmem, hut]
  · by_cases hut : u = t
    · subst hut
      simp [opened]
    · have hne : some u ≠ some t := by simpa using hut
      have hu' : u ∈ wins := by simpa [hut] using hu
      simp [opened, Function.update_of_ne hne, hid u hu']

/-- In a kernel whose windows are those of the valid terminals, a new window finds a place. -/
theorem Windowed.fits (h : k.Windowed) {t : TermId} (ht : (k.term (some t)).valid = false) :
    k.WindowFits t := by
  obtain ⟨wins, hw, hmem, -⟩ := h
  have hn : t ∉ wins := by simp [hmem, ht]
  have hnone : k.gui.findWindowIdx (some t) = none := by rw [hw.findWindowIdx_some, if_neg hn]
  exact ⟨hnone, by simp [(hw.fits hnone).2]⟩

/-! ## The program of a new task -/

/-- The program can be loaded: it is there, it is executable, and there is a page for it. -/
def Loadable (k : Kernel) (img : FsImage) (a : ExecuteArgs) (noise : Noise) : Prop :=
  0 ≤ (k.paging.taskPagingAllocateAndSet img (executeParseCommand a.command).1 noise.stack).2

instance (img : FsImage) (noise : Noise) : Decidable (k.Loadable img a noise) :=
  inferInstanceAs (Decidable (_ ≤ _))

/-- The task `x` becomes the foreground task of its terminal. -/
def foreground (k : Kernel) (x : TaskId) (t : TermId) : Kernel :=
  ((taskSetFocusTask { k with terminalFgTask := Function.update k.terminalFgTask t (some x) }
    (some x)).guiActivateWindow t).terminalSetRunning (some t)

theorem foreground_eq (k : Kernel) (x : TaskId) (t : TermId) :
    ∃ g f v r, k.foreground x t = { k.mapped v r with
        terminalFgTask := Function.update k.terminalFgTask t (some x), gui := g, focusTask := f } ∧
      (k.Windowed → f = some x) ∧
      (∀ wins, k.gui.Holds wins → ∃ wins', g.Holds wins' ∧ ∀ u, u ∈ wins' ↔ u ∈ wins) ∧
      g = activated k.gui (some t) := by
  have hgui := guiActivateWindow_gui (taskSetFocusTask { k with
    terminalFgTask := Function.update k.terminalFgTask t (some x) } (some x)) t
  obtain ⟨g, f, v, r, hg, hf, hw⟩ := guiActivateWindow_eq (taskSetFocusTask { k with
    terminalFgTask := Function.update k.terminalFgTask t (some x) } (some x)) t
  rw [hg] at hgui
  obtain ⟨v', r', hv⟩ := terminalSetRunning_eq { mapped (taskSetFocusTask { k with
    terminalFgTask := Function.update k.terminalFgTask t (some x) } (some x)) v r with
      gui := g, focusTask := f } (some t)
  refine ⟨g, f, v', r', ?_, fun hwin => ?_, hw, hgui⟩
  · unfold foreground
    rw [hg, hv]
    rfl
  · rcases hf with ⟨hf, -⟩ | ⟨hin, hf, -⟩
    · exact hf
    · have hid : (k.term (some t)).win.terminalId = t := hwin.terminalId hin
      change f = (Function.update k.terminalFgTask t (some x)
        (k.term (some t)).win.terminalId).or (some x) at hf
      rw [hid, Function.update_self] at hf
      exact hf

/-- The task `x` has got the page `i`. -/
def paged (k : Kernel) (x : TaskId) (i : Fin 10) : Kernel :=
  { k.modifyTask x fun t => { t with pageId := i.val } with paging := k.paging.allocated i }

theorem executeProgram_eq {img : FsImage} {noise : Noise} {i : Fin 10}
    (he : k.paging.taskPagingAllocateAndSet img (executeParseCommand a.command).1 noise.stack
      = (k.paging.allocated i, (i.val : ℤ))) :
    k.executeProgram img a noise x = .ok (match (k.task x).terminal with
      | none => (k.paged x i).terminalSetRunning none
      | some t => (k.paged x i).foreground x t) := by
  have hpos : ¬ ((i.val : ℤ) < 0) := by omega
  have hterm : ((k.paged x i).task x).terminal = (k.task x).terminal := by simp [paged]
  unfold executeProgram
  simp only [he]
  rw [if_neg hpos]
  change (match ((k.paged x i).task x).terminal with
    | none => _
    | some t => _) = _
  rw [hterm]
  cases (k.task x).terminal <;> rfl

/-- The task `x` with a page, and in the foreground of its terminal. -/
def programmed (k : Kernel) (x : TaskId) (i : Fin 10) (g : Gui) (f : Option TaskId) (v : Pde4kB)
    (r : Option TermId) : Kernel :=
  { (k.paged x i).mapped v r with
    terminalFgTask := fun t => if (k.task x).terminal = some t then some x else k.terminalFgTask t
    gui := g
    focusTask := f }

/-- **Loading a program that can be loaded.** -/
theorem executeProgram_some {img : FsImage} {noise : Noise} (h : k.Loadable img a noise) :
    ∃ i g f v r, k.paging.pageIdRunning i = false ∧
      k.executeProgram img a noise x = .ok (k.programmed x i g f v r) ∧
      (k.Windowed → f = if (k.task x).terminal = none then k.focusTask else some x) ∧
      (∀ wins, k.gui.Holds wins → ∃ wins', g.Holds wins' ∧ ∀ u, u ∈ wins' ↔ u ∈ wins) ∧
      g = activated k.gui (k.task x).terminal := by
  unfold Loadable at h
  rcases k.paging.allocateAndSet_cases img (executeParseCommand a.command).1 noise.stack with
    ⟨n, hn, he⟩ | ⟨i, hfree, he⟩
  · rw [he] at h
    exact absurd h (not_le.mpr hn)
  · have hi : k.paging.pageIdRunning i = false := by simpa using List.find?_some hfree
    rw [executeProgram_eq he]
    cases ht : (k.task x).terminal with
    | none =>
      obtain ⟨v, r, hv⟩ := (k.paged x i).terminalSetRunning_eq none
      refine ⟨i, k.gui, k.focusTask, v, r, hi, ?_, fun _ => by simp, fun wins hw =>
        ⟨wins, hw, fun _ => Iff.rfl⟩, rfl⟩
      simp only [hv, programmed, ht]
      rfl
    | some t =>
      obtain ⟨g, f, v, r, hg, hf, hw, hgui⟩ := (k.paged x i).foreground_eq x t
      have hfg : Function.update k.terminalFgTask t (some x)
          = fun u => if some t = some u then some x else k.terminalFgTask u := by
        funext u
        by_cases hu : u = t
        · simp [hu]
        · have hu' : t ≠ u := fun h => hu h.symm
          simp [hu, hu']
      refine ⟨i, g, f, v, r, hi, ?_, fun hwin => (hf hwin).trans (by simp), hw, hgui⟩
      simp only [hg, programmed, ht, ← hfg]
      rfl

/-- The terminal `t` is taken down again. -/
def closed (k : Kernel) (t : TermId) : Kernel :=
  { k.guiDestroyWindow t with vidmem := k.vidmem.terminalVidmemClose t }.terminalDeallocate t

theorem allocateAndSet_none {img : FsImage} {noise : Noise} (h : ¬ k.Loadable img a noise) :
    ∃ n < 0, k.paging.taskPagingAllocateAndSet img (executeParseCommand a.command).1 noise.stack
      = (k.paging, n) := by
  unfold Loadable at h
  rcases k.paging.allocateAndSet_cases img (executeParseCommand a.command).1 noise.stack with
    hn | ⟨i, -, he⟩
  · exact hn
  · rw [he] at h
    exact absurd (by simp) h

/-- A program that cannot be loaded is turned down. -/
theorem executeProgram_none {img : FsImage} {noise : Noise} (h : ¬ k.Loadable img a noise)
    (ho : (k.task x).flags.terminalOwner = false) :
    ∃ f, k.executeProgram img a noise x = .error ((k.modifyTask x f).taskDeallocate x) := by
  obtain ⟨n, hn, he⟩ := allocateAndSet_none h
  refine ⟨fun t => { t with pageId := n }, ?_⟩
  simp [executeProgram, he, hn, ho, modifyTask]

/-- The terminal that was opened for it is closed. -/
theorem executeProgram_none_owner {img : FsImage} {noise : Noise} (h : ¬ k.Loadable img a noise)
    (ho : (k.task x).flags.terminalOwner = true) {t : TermId}
    (ht : (k.task x).terminal = some t) :
    ∃ f, k.executeProgram img a noise x
      = .error (((k.modifyTask x f).closed t).taskDeallocate x) := by
  obtain ⟨n, hn, he⟩ := allocateAndSet_none h
  refine ⟨fun t => { t with pageId := n }, ?_⟩
  simp [executeProgram, he, hn, ho, ht, modifyTask, closed]
  rfl

/-- A terminal that was opened for nothing is closed again. -/
theorem InSlot.closed_opened {k₀ : Kernel} (h : InSlot x k₀ k) {t : TermId} {idx : ℕ}
    {wins : List TermId} (hw : k₀.gui.Holds wins) (ht : (k₀.term (some t)).valid = false)
    (ho : k₀.vidmem.terminalOpened t = false) (hterm : k.term = k₀.term) (hf : k.WindowFits t)
    (hidx : k.gui.findWindowIdx none = some idx) (f : Task → Task) :
    InSlot x k₀ (((k.opened x t idx).modifyTask x f).closed t) where
  running := h.running
  eax := h.eax
  taskCount := h.taskCount
  task := by
    intro y hy
    simp [Kernel.closed, guiDestroyWindow, terminalDeallocate, opened, Function.update_of_ne hy,
      h.task y hy]
  links := h.links
  terminalFgTask := h.terminalFgTask
  focusTask := h.focusTask
  runningTerm := h.runningTerm
  paging := h.paging
  vidmem := by
    show (k.vidmem.terminalVidmemOpen t).terminalVidmemClose t = k₀.vidmem
    rw [h.vidmem]
    simp [Vidmem.terminalVidmemOpen, Vidmem.terminalVidmemClose, ← ho]
  gui := by
    show (k.gui.put idx t).destroyWindow t = k₀.gui
    rw [h.gui] at hidx ⊢
    exact hw.destroyWindow_put (h.gui ▸ hf.1) hidx
  keyboard := h.keyboard
  mouse := h.mouse
  term := by
    intro u hu
    have hne : u ≠ some t := by
      rintro rfl
      rw [ht] at hu
      cases hu
    simp [Kernel.closed, guiDestroyWindow, terminalDeallocate, opened, Function.update_of_ne hne,
      hterm]
  freeTerm := by
    intro u hu
    by_cases hut : u = some t
    · subst hut
      simp [Kernel.closed, guiDestroyWindow, terminalDeallocate, opened, Terminal.allocate, hterm]
    · simp [Kernel.closed, guiDestroyWindow, terminalDeallocate, opened, Function.update_of_ne hut,
        hterm, hu]

/-! ## The task before its program is loaded -/

/-- The kernel at the end of phase 1. -/
def prepared (k : Kernel) (a : ExecuteArgs) (x : TaskId) : Kernel :=
  ((k.allocated x).modifyTask x fun t => { t with
    flags := k.newFlags a, parent := k.newParent a }).executeStrings a x

theorem prepared_inSlot (k : Kernel) (a : ExecuteArgs) (x : TaskId) : InSlot x k (k.prepared a x) :=
  ((inSlot_allocated k x).modifyTask _).executeStrings a

theorem prepared_self (k : Kernel) (a : ExecuteArgs) (x : TaskId) :
    ((k.prepared a x).task x).valid = true ∧ ((k.prepared a x).task x).flags = k.newFlags a ∧
      ((k.prepared a x).task x).parent = k.newParent a ∧
      ((k.prepared a x).task x).vidmapEnabled = false := by
  simp [prepared, executeStrings, allocated]

theorem prepared_terminal (k : Kernel) (a : ExecuteArgs) (x : TaskId) :
    (k.prepared a x).runningTask.terminal = k.runningTask.terminal := by
  by_cases hx : k.running = x
  · simp [prepared, executeStrings, allocated, runningTask, hx]
  · simp [prepared, executeStrings, allocated, runningTask, hx]

@[simp] theorem prepared_running : (k.prepared a x).running = k.running := rfl
@[simp] theorem prepared_eax : (k.prepared a x).eax = k.eax := rfl
@[simp] theorem prepared_taskCount : (k.prepared a x).taskCount = k.taskCount + 1 := rfl
@[simp] theorem prepared_links : (k.prepared a x).links = k.links.reset (.item x) := rfl
@[simp] theorem prepared_fg : (k.prepared a x).terminalFgTask = k.terminalFgTask := rfl
@[simp] theorem prepared_focusTask : (k.prepared a x).focusTask = k.focusTask := rfl
@[simp] theorem prepared_term : (k.prepared a x).term = k.term := rfl
@[simp] theorem prepared_paging : (k.prepared a x).paging = k.paging := rfl
@[simp] theorem prepared_vidmem : (k.prepared a x).vidmem = k.vidmem := rfl
@[simp] theorem prepared_gui : (k.prepared a x).gui = k.gui := rfl

/-! ## What a loaded task is -/

/-- The terminal of a new task. -/
def launchTerminal (k : Kernel) (a : ExecuteArgs) : Option TermId :=
  if a.kernelTask then none
  else if a.newTerminal then k.freeTerminal
  else if k.taskCount = 0 then none
  else k.runningTask.terminal

/-- The flags of a new task. -/
def launchFlags (k : Kernel) (a : ExecuteArgs) : TaskFlags :=
  { k.newFlags a with terminalOwner := a.newTerminal }

/-- The new task `x` at the end of phase 2, and the resources that are its own now. -/
structure Placed (k : Kernel) (a : ExecuteArgs) (x : TaskId) (k' : Kernel) : Prop where
  fresh : (k.task x).valid = false
  eax : k'.eax = k.eax
  taskCount : k'.taskCount = k.taskCount + 1
  valid : (k'.task x).valid = true
  flags : (k'.task x).flags = k.launchFlags a
  parent : (k'.task x).parent = k.newParent a
  vidmap : (k'.task x).vidmapEnabled = false
  terminal : (k'.task x).terminal = k.launchTerminal a
  pages : a.kernelTask = true ∧ k'.paging = k.paging ∧ (k'.task x).pageId = -1 ∨
    a.kernelTask = false ∧ ∃ i : Fin 10, k.paging.pageIdRunning i = false ∧
      k'.paging = k.paging.allocated i ∧ (k'.task x).pageId = i.val
  fg : ∀ t, k'.terminalFgTask t
    = if k.launchTerminal a = some t then some x else k.terminalFgTask t
  focus : k.Windowed → k'.focusTask
    = if k.launchTerminal a = none then k.focusTask else some x
  vidmapEntry : k'.vidmem.vidmapEntry = k.vidmem.vidmapEntry
  opened : ∀ t, k'.vidmem.terminalOpened t
    = (k.vidmem.terminalOpened t || decide (a.newTerminal = true ∧ k.launchTerminal a = some t))
  term : ∀ u, (a.newTerminal = true → k.launchTerminal a ≠ u) → k'.term u = k.term u
  newTerm : a.newTerminal = true → ∃ t win, k.launchTerminal a = some t ∧
    (k.term (some t)).valid = false ∧
      k'.term (some t) = { (k.term (some t)).allocate with win := win }
  windowed : k.Windowed → k'.Windowed
  top : k.Windowed → ∀ t, k.launchTerminal a = some t → (k'.term (some t)).valid = true →
    k'.gui.windowStack.headD none = some t

/-- The end of phase 2: apart from the new task, the tasks are as they were. -/
structure Loaded (k : Kernel) (a : ExecuteArgs) (x : TaskId) (k' : Kernel) : Prop extends
    Placed k a x k' where
  running : k'.running = k.running
  other : ∀ y, y ≠ x → k'.task y = k.task y
  links : k'.links = k.links.reset (.item x)

section Load

variable (hx : (k.task x).valid = false) (hr : ¬ k.Rejected a)
include hx hr

theorem loaded_kernelTask (ha : a.kernelTask = true) : Loaded k a x
    ((k.prepared a x).modifyTask x fun t => { t with terminal := none, pageId := -1 }) := by
  obtain ⟨hvalid, hflags, hparent, hvid⟩ := k.prepared_self a x
  have hn : a.newTerminal = false := by
    by_contra h
    exact hr (Or.inr (Or.inr (Or.inl ⟨ha, by simpa using h⟩)))
  have ht : k.launchTerminal a = none := by simp [launchTerminal, ha]
  constructor
  case toPlaced =>
    constructor
    case windowed => exact fun h => h.congr rfl fun _ => ⟨rfl, rfl⟩
    case top =>
      intro _ t he
      rw [ht] at he
      cases he
    all_goals simp [hx, hvalid, hflags, hparent, hvid, ht, hn, ha, launchFlags, newFlags]
  case other =>
    intro y hy
    simp [Function.update_of_ne hy, (k.prepared_inSlot a x).task y hy]
  all_goals simp

end Load

/-- A new user task that has its terminal, but no program yet. -/
structure Seated (k : Kernel) (a : ExecuteArgs) (x : TaskId) (k' : Kernel) : Prop where
  inSlot : k'.running = k.running ∧ k'.eax = k.eax ∧ k'.taskCount = k.taskCount + 1 ∧
    k'.links = k.links.reset (.item x) ∧ k'.paging = k.paging ∧
    k'.terminalFgTask = k.terminalFgTask ∧ k'.focusTask = k.focusTask
  other : ∀ y, y ≠ x → k'.task y = k.task y
  self : (k'.task x).valid = true ∧ (k'.task x).flags = k.launchFlags a ∧
    (k'.task x).parent = k.newParent a ∧ (k'.task x).vidmapEnabled = false ∧
    (k'.task x).terminal = k.launchTerminal a
  vidmapEntry : k'.vidmem.vidmapEntry = k.vidmem.vidmapEntry
  opened : ∀ t, k'.vidmem.terminalOpened t
    = (k.vidmem.terminalOpened t || decide (a.newTerminal = true ∧ k.launchTerminal a = some t))
  term : ∀ u, (a.newTerminal = true → k.launchTerminal a ≠ u) → k'.term u = k.term u
  newTerm : a.newTerminal = true → ∃ t win, k.launchTerminal a = some t ∧
    (k.term (some t)).valid = false ∧
      k'.term (some t) = { (k.term (some t)).allocate with win := win }
  windowed : k.Windowed → k'.Windowed

theorem seated_shared (k : Kernel) (x : TaskId) (ha : a.kernelTask = false)
    (hn : a.newTerminal = false) :
    ∃ k', (k.prepared a x).executeTerminal a x = .ok k' ∧ Seated k a x k' ∧
      InSlot x k k' ∧ (k'.task x).flags.terminalOwner = false := by
  obtain ⟨hvalid, hflags, hparent, hvid⟩ := k.prepared_self a x
  have hterm := k.prepared_terminal a x
  refine ⟨_, by rw [executeTerminal, if_neg (by simp [hn])], ?_,
    (k.prepared_inSlot a x).modifyTask _,
    by simp [hflags, newFlags]⟩
  constructor
  case inSlot => simp
  case other =>
    intro y hy
    simp [Function.update_of_ne hy, (k.prepared_inSlot a x).task y hy]
  case self =>
    refine ⟨by simp [hvalid], by simp [hflags, launchFlags, newFlags, hn], by simp [hparent],
      by simp [hvid], ?_⟩
    simp [hflags, hterm, newFlags, launchTerminal, ha, hn]
  case windowed => exact fun h => h.congr rfl fun _ => ⟨rfl, rfl⟩
  all_goals simp [hn]

theorem seated_own (ha : a.kernelTask = false) (hn : a.newTerminal = true) {t : TermId} {idx : ℕ}
    (hf : k.freeTerminal = some t) (hfit : k.WindowFits t)
    (hidx : k.gui.findWindowIdx none = some idx) :
    Seated k a x ((k.prepared a x).opened x t idx) := by
  obtain ⟨hvalid, hflags, hparent, hvid⟩ := k.prepared_self a x
  have ht : k.launchTerminal a = some t := by simp [launchTerminal, ha, hn, hf]
  constructor
  case inSlot => simp [Kernel.opened]
  case other =>
    intro y hy
    simp [Kernel.opened, Function.update_of_ne hy, (k.prepared_inSlot a x).task y hy]
  case self =>
    simp [Kernel.opened, hvalid, hflags, hparent, hvid, ht, launchFlags, hn]
  case vidmapEntry => simp [Kernel.opened, Vidmem.terminalVidmemOpen]
  case opened =>
    intro u
    by_cases hu : u = t
    · simp [Kernel.opened, Vidmem.terminalVidmemOpen, hu, hn, ht]
    · have hu' : t ≠ u := fun h => hu h.symm
      simp [Kernel.opened, Vidmem.terminalVidmemOpen, hu, hu', ht]
  case term =>
    intro u hu
    have hne : u ≠ some t := fun h => hu hn (ht.trans h.symm)
    simp [Kernel.opened, Function.update_of_ne hne]
  case newTerm => exact fun _ => ⟨t, _, ht, freeTerminal_valid hf, by simp [Kernel.opened]; rfl⟩
  case windowed =>
    intro hw
    exact opened_windowed (k := k.prepared a x) (hw.congr rfl fun _ => ⟨rfl, rfl⟩) x hfit hidx

/-- **A seated task whose program can be loaded is loaded.** -/
theorem Seated.loaded {img : FsImage} {noise : Noise} (h : Seated k a x k')
    (hx : (k.task x).valid = false) (ha : a.kernelTask = false) (hl : k.Loadable img a noise) :
    ∃ k'', k'.executeProgram img a noise x = .ok k'' ∧ Loaded k a x k'' := by
  obtain ⟨hrun, heax, hcount, hlinks, hpaging, hfg, hfocus⟩ := h.inSlot
  obtain ⟨hvalid, hflags, hparent, hvid, hterm⟩ := h.self
  have hl' : k'.Loadable img a noise := by
    unfold Loadable
    rw [hpaging]
    exact hl
  obtain ⟨i, g, f, v, r, hi, hok, hf, hw, hgui⟩ := executeProgram_some (x := x) hl'
  refine ⟨_, hok, ?_⟩
  constructor
  case toPlaced =>
    constructor
    case fresh => exact hx
    case eax => exact heax
    case taskCount => exact hcount
    case valid => simp [programmed, paged, mapped, hvalid]
    case flags => simp [programmed, paged, mapped, hflags]
    case parent => simp [programmed, paged, mapped, hparent]
    case vidmap => simp [programmed, paged, mapped, hvid]
    case terminal => simp [programmed, paged, mapped, hterm]
    case pages =>
      refine Or.inr ⟨ha, i, hpaging ▸ hi, ?_, by simp [programmed, paged, mapped]⟩
      simp [programmed, paged, mapped, hpaging]
    case fg => simp [programmed, hterm, hfg]
    case focus => exact fun hk => (hf (h.windowed hk)).trans (by rw [hterm, hfocus])
    case vidmapEntry => exact h.vidmapEntry
    case opened => exact h.opened
    case term => exact h.term
    case newTerm => exact h.newTerm
    case windowed =>
      intro hk
      obtain ⟨wins, hholds, hmem, hid⟩ := h.windowed hk
      obtain ⟨wins', hholds', hiff⟩ := hw wins hholds
      exact ⟨wins', hholds', fun u => (hiff u).trans (hmem u), fun u hu => hid u ((hiff u).mp hu)⟩
    case top =>
      intro hk t ht hv
      obtain ⟨wins, hholds, hmem, -⟩ := h.windowed hk
      show g.windowStack.headD none = some t
      rw [hgui, hterm, ht, activated_top hholds, if_pos ((hmem t).mpr hv)]
  case running => exact hrun
  case other =>
    intro y hy
    simp [programmed, paged, mapped, Function.update_of_ne hy, h.other y hy]
  case links => exact hlinks

/-! ## The launch -/

/-- The lists after the launch of `x` by the task `y`. -/
def launchLinks (l : Links ListNode) (a : ExecuteArgs) (x y : TaskId) : Links ListNode :=
  let l := l.move (.item x) (.head .runQueue) (l.next (.head .runQueue))
  if a.wait = 1 then
    l.move (.item y) (.head .wait4childList) (l.next (.head .wait4childList))
  else l

/-- The task that calls `system_execute`, at label 1 of `execute_launch`. -/
def callerTask (a : ExecuteArgs) (t : Task) : Task :=
  { t with
    flags := { t.flags with waitingChild := t.flags.waitingChild || decide (a.wait = 1) }
    kstack := .executeLaunch (a.wait = 1) :: t.kstack }

/-- **A launched task runs**, and its caller waits at label 1 of `execute_launch`. -/
structure Launched (k : Kernel) (a : ExecuteArgs) (x : TaskId) (k' : Kernel) : Prop extends
    Placed k a x k' where
  running : k'.running = x
  kstack : (k'.task x).kstack = []
  other : ∀ y, y ≠ x → y ≠ k.running → k'.task y = k.task y
  caller : k'.task k.running = callerTask a (k.task k.running)
  links : k'.links = launchLinks (k.links.reset (.item x)) a x k.running

/-- Phases 3 and 4, behind the blocks of the new task. -/
def executeEnter (k : Kernel) (a : ExecuteArgs) (x : TaskId) : Kernel :=
  ((k.executeInit x).executeSchedule a x).executeLaunch a x

theorem modifyTask_valid (k : Kernel) (x y : TaskId) (f : Task → Task)
    (hf : ∀ t, (f t).valid = t.valid) : ((k.modifyTask x f).task y).valid = (k.task y).valid := by
  by_cases hy : y = x
  · simp [hy, hf]
  · simp [hy]

theorem executeSchedule_valid (k : Kernel) (a : ExecuteArgs) (x y : TaskId) :
    ((k.executeSchedule a x).task y).valid = (k.task y).valid := by
  have hmove : ∀ (m : Kernel) z n, (m.moveTaskAfterNode z n).task = m.task := fun _ _ _ => rfl
  unfold executeSchedule schedInsertToHead schedMoveRunningAfterNode
  by_cases hw : a.wait = 1
  · simp only [if_pos hw, hmove]
    rw [modifyTask_valid, hmove, modifyTask_valid] <;> exact fun _ => rfl
  · simp only [if_neg hw, hmove]
    rw [modifyTask_valid]
    exact fun _ => rfl

theorem executeLaunch_valid (k : Kernel) (a : ExecuteArgs) (x y : TaskId) :
    ((k.executeLaunch a x).task y).valid = (k.task y).valid := by
  unfold executeLaunch push
  by_cases hi : (k.task x).flags.initTask = true
  · simp only [if_pos hi]
    rw [modifyTask_valid]
    exact fun _ => rfl
  · simp only [if_neg hi]
    rw [modifyTask_valid, modifyTask_valid] <;> exact fun _ => rfl

theorem executeEnter_running (k : Kernel) (a : ExecuteArgs) (x : TaskId) :
    (k.executeEnter a x).running = x ∧
      ((k.executeEnter a x).task x).valid = (k.task x).valid := by
  refine ⟨rfl, ?_⟩
  rw [executeEnter, executeLaunch_valid, executeSchedule_valid]
  simp [executeInit]

/-- A new task at its entry. -/
def enteredTask (t : Task) : Task :=
  { t with
    rtc := rtcControlInit t.rtc
    fileArray := t.fileArray.init
    signals := taskSignalInit t.signals
    remainTime := if t.flags.idleTask then 0 else schedTaskTime
    kstack := [] }

/-- **Phases 3 and 4** update the new task and its caller. -/
theorem executeEnter_eq (hr : k.running ≠ x) (hi : (k.task x).flags.initTask = false)
    (a : ExecuteArgs) : k.executeEnter a x
      = { (k.modifyTask k.running (callerTask a)).modifyTask x enteredTask with
          running := x
          links := launchLinks k.links a x k.running } := by
  have hx : x ≠ k.running := fun h => hr h.symm
  unfold executeEnter executeLaunch executeSchedule executeInit launchLinks
  by_cases hw : a.wait = 1
  · simp [hw, hi, hr, hx, push, schedInsertToHead, schedMoveRunningAfterNode, moveTaskAfterNode,
      moveTaskToList]
    rw [Function.update_comm hx, Function.update_idem]
    simp [callerTask, enteredTask, hw]
  · simp [hw, hi, hr, hx, push, schedInsertToHead, moveTaskAfterNode, moveTaskToList]
    rw [Function.update_comm hx, Function.update_idem]
    simp [callerTask, enteredTask, hw]

theorem Loaded.launched (h : Loaded k a x k') (hr : k.running ≠ x) (hc : k.taskCount ≠ 0) :
    Launched k a x (k'.executeEnter a x) := by
  have hinit : (k'.task x).flags.initTask = false := by
    rw [h.flags]
    simp [launchFlags, newFlags, hc]
  have hrun : k'.running ≠ x := h.running ▸ hr
  rw [executeEnter_eq hrun hinit]
  constructor
  case toPlaced =>
    constructor
    case fresh => exact h.fresh
    case eax => exact h.eax
    case taskCount => exact h.taskCount
    case valid => simp [enteredTask, hrun.symm, h.valid]
    case flags => simp [enteredTask, hrun.symm, h.flags]
    case parent => simp [enteredTask, hrun.symm, h.parent]
    case vidmap => simp [enteredTask, hrun.symm, h.vidmap]
    case terminal => simp [enteredTask, hrun.symm, h.terminal]
    case pages => simpa [enteredTask, hrun.symm] using h.pages
    case fg => exact h.fg
    case focus => exact h.focus
    case vidmapEntry => exact h.vidmapEntry
    case opened => exact h.opened
    case term => exact h.term
    case newTerm => exact h.newTerm
    case windowed => exact fun hk => (h.windowed hk).congr rfl fun _ => ⟨rfl, rfl⟩
    case top => exact h.top
  case running => rfl
  case kstack => simp [enteredTask]
  case other =>
    intro y hy hy'
    rw [← h.running] at hy'
    simp [Function.update_of_ne hy, Function.update_of_ne hy', h.other y hy]
  case caller => simp [hr, h.running, h.other _ hr]
  case links => rw [← h.links, h.running]

/-! ## The whole call -/

/-- A kernel state that fits together: `task_count` counts the tasks, the windows on the
stack are distinct, and a free terminal has no video memory. -/
structure WellFormed (k : Kernel) : Prop where
  count : k.taskCount = k.live.card
  windows : ∃ wins, k.gui.Holds wins
  closed : ∀ t, (k.term (some t)).valid = false → k.vidmem.terminalOpened t = false

/-- The slot that is allocated is not given back. -/
def SlotLeaks (k : Kernel) (a : ExecuteArgs) : Prop := k.taskCount < 10 ∧ k.Refused a

instance : Decidable (k.SlotLeaks a) := inferInstanceAs (Decidable (_ ∧ _))

/-- There is a terminal for the new task, but no place for its window. -/
def WindowFails (k : Kernel) (a : ExecuteArgs) : Prop :=
  k.taskCount < 10 ∧ ¬ k.Refused a ∧ ¬ k.Rejected a ∧ a.kernelTask = false ∧
    a.newTerminal = true ∧ ∃ t, k.freeTerminal = some t ∧ ¬ k.WindowFits t

/-- Everything that the new task needs is there. -/
def Launches (k : Kernel) (img : FsImage) (a : ExecuteArgs) (noise : Noise) : Prop :=
  k.taskCount < 10 ∧ ¬ k.Refused a ∧ ¬ k.Rejected a ∧ (a.kernelTask = false →
    (a.newTerminal = true → k.freeTerminal ≠ none) ∧ k.Loadable img a noise)

instance (img : FsImage) (noise : Noise) : Decidable (k.Launches img a noise) :=
  inferInstanceAs (Decidable (_ ∧ _ ∧ _ ∧ (_ → _)))

theorem systemExecute_eq {img : FsImage} {noise : Noise}
    (ha : k.taskAllocateNewSlot = (k.allocated x, some x)) (hf : ¬ k.Refused a)
    (hr : ¬ k.Rejected a) : k.systemExecute img noise a =
      (k.prepared a x).executeLoad img a noise x >>= fun k => .ok (k.executeEnter a x) := by
  rcases k.executeFlags_cases a x with ⟨-, -, h⟩ | ⟨h, -⟩ | ⟨-, h, -⟩
  · unfold systemExecute
    rw [ha]
    simp only [h, ok_bind]
    rfl
  · exact absurd h hf
  · exact absurd h hr

section Outcomes

variable {img : FsImage} {noise : Noise} (hx : (k.task x).valid = false)
  (hc : k.taskCount < 10) (hf : ¬ k.Refused a) (hr : ¬ k.Rejected a)
include hx hc hf hr

/-- Phase 2 of a task that shares the terminal of its caller. -/
theorem executeLoad_shared (ha : a.kernelTask = false) (hn : a.newTerminal = false) :
    (¬ k.Launches img a noise ∧
      ∃ k', (k.prepared a x).executeLoad img a noise x = .error k' ∧ Untouched k k') ∨
    (k.Launches img a noise ∧
      ∃ k', (k.prepared a x).executeLoad img a noise x = .ok k' ∧ Loaded k a x k') := by
  obtain ⟨k₁, hok, hseated, hslot, howner⟩ := seated_shared k x ha hn
  have hload : (k.prepared a x).executeLoad img a noise x = k₁.executeProgram img a noise x := by
    simp [executeLoad, ha, hok]
  rw [hload]
  by_cases hl : k.Loadable img a noise
  · refine Or.inr ⟨⟨hc, hf, hr, fun _ => ⟨by simp [hn], hl⟩⟩, ?_⟩
    exact hseated.loaded hx ha hl
  · refine Or.inl ⟨fun h => hl (h.2.2.2 ha).2, ?_⟩
    have hl' : ¬ k₁.Loadable img a noise := by
      unfold Loadable at hl ⊢
      rwa [hslot.paging]
    obtain ⟨f, hrun⟩ := executeProgram_none hl' howner
    exact ⟨_, hrun, (hslot.modifyTask f).taskDeallocate hx hc⟩

/-- Phase 2 of a task that gets a terminal of its own. -/
theorem executeLoad_own (hk : k.WellFormed) (ha : a.kernelTask = false)
    (hn : a.newTerminal = true) :
    (k.WindowFails a ∧
      ((∃ k', (k.prepared a x).executeLoad img a noise x = .error k' ∧ k'.taskCount ≠ k.taskCount) ∨
        ∃ k', (k.prepared a x).executeLoad img a noise x = .ok k' ∧ (k'.task x).valid = false)) ∨
    (¬ k.WindowFails a ∧ ¬ k.Launches img a noise ∧
      ∃ k', (k.prepared a x).executeLoad img a noise x = .error k' ∧ Untouched k k') ∨
    (¬ k.WindowFails a ∧ k.Launches img a noise ∧
      ∃ k', (k.prepared a x).executeLoad img a noise x = .ok k' ∧ Loaded k a x k') := by
  have hslot := k.prepared_inSlot a x
  have hload : (k.prepared a x).executeLoad img a noise x =
      (k.prepared a x).executeNewTerminal x >>= fun k => k.executeProgram img a noise x := by
    simp [executeLoad, executeTerminal, ha, hn]
  rw [hload]
  have hfree : (k.prepared a x).freeTerminal = k.freeTerminal := rfl
  rcases (k.prepared a x).executeNewTerminal_cases x with
    ⟨hnone, f, hrun⟩ | ⟨t, hsome, ⟨hfit, idx, hidx, hrun⟩ | ⟨hfit, hrun⟩⟩
  · -- no terminal is left
    rw [hfree] at hnone
    refine Or.inr (Or.inl ⟨?_, fun h => (h.2.2.2 ha).1 hn hnone, _, by rw [hrun]; rfl,
      (hslot.modifyTask f).taskDeallocate hx hc⟩)
    rintro ⟨-, -, -, -, -, t, ht, -⟩
    rw [hnone] at ht
    cases ht
  · -- there is a terminal and a window
    rw [hfree] at hsome
    have hfails : ¬ k.WindowFails a := by
      rintro ⟨-, -, -, -, -, u, hu, hnot⟩
      obtain rfl : t = u := Option.some.inj (hsome.symm.trans hu)
      exact hnot hfit
    have hseated := seated_own (k := k) (x := x) ha hn hsome hfit hidx
    rw [hrun, ok_bind]
    by_cases hl : k.Loadable img a noise
    · refine Or.inr (Or.inr ⟨hfails, ⟨hc, hf, hr, fun _ => ⟨fun _ => by simp [hsome], hl⟩⟩, ?_⟩)
      exact hseated.loaded hx ha hl
    · refine Or.inr (Or.inl ⟨hfails, fun h => hl (h.2.2.2 ha).2, ?_⟩)
      obtain ⟨f, hrun'⟩ := executeProgram_none_owner (k := (k.prepared a x).opened x t idx)
        (x := x) (t := t) hl (by simp [opened]) (by simp [opened])
      obtain ⟨wins, hw⟩ := hk.windows
      have ht := freeTerminal_valid hsome
      exact ⟨_, hrun', (hslot.closed_opened hw ht (hk.closed t ht) rfl hfit hidx f).taskDeallocate
        hx hc⟩
  · -- the window is refused, and the function goes on with a slot that it has given back
    rw [hfree] at hsome
    refine Or.inl ⟨⟨hc, hf, hr, ha, hn, t, hsome, hfit⟩, ?_⟩
    rw [hrun, ok_bind]
    by_cases hl : k.Loadable img a noise
    · obtain ⟨i, g, f, v, r, -, hrun', -⟩ := executeProgram_some
        (k := (k.prepared a x).unopened x t) (x := x) hl
      exact Or.inr ⟨_, hrun', by simp [programmed, paged, mapped, unopened]⟩
    · obtain ⟨f, hrun'⟩ := executeProgram_none_owner (k := (k.prepared a x).unopened x t)
        (x := x) (t := t) hl (by simp [unopened]) (by simp [unopened])
      refine Or.inl ⟨_, hrun', ?_⟩
      show ((k.taskCount + 1 + (2 ^ 32 - 1)) % 2 ^ 32 + (2 ^ 32 - 1)) % 2 ^ 32 ≠ k.taskCount
      omega

end Outcomes

/-- **What `system_execute` does** to a kernel that fits together. -/
theorem systemExecute_cases (hk : k.WellFormed) (img : FsImage) (noise : Noise) (a : ExecuteArgs) :
    (k.SlotLeaks a ∧ ∃ x f, (k.task x).valid = false ∧ (∀ t, (f t).valid = t.valid) ∧
      k.systemExecute img noise a = .error ((k.allocated x).modifyTask x f)) ∨
    (k.WindowFails a ∧
      ((∃ k', k.systemExecute img noise a = .error k' ∧ k'.taskCount ≠ k.taskCount) ∨
        ∃ k', k.systemExecute img noise a = .ok k' ∧ (k'.task k'.running).valid = false)) ∨
    (¬ k.SlotLeaks a ∧ ¬ k.WindowFails a ∧ ¬ k.Launches img a noise ∧
      ∃ k', k.systemExecute img noise a = .error k' ∧ Untouched k k') ∨
    (¬ k.SlotLeaks a ∧ ¬ k.WindowFails a ∧ k.Launches img a noise ∧
      ∃ x k', Loaded k a x k' ∧ k.systemExecute img noise a = .ok (k'.executeEnter a x)) := by
  rcases taskAllocateNewSlot_cases hk.count with ⟨hfull, hslot⟩ | ⟨hc, x, hx, hslot⟩
  · refine Or.inr (Or.inr (Or.inl ⟨fun h => ?_, fun h => ?_, fun h => ?_, k, ?_, .refl k⟩))
    · exact absurd h.1 (Nat.not_lt.mpr hfull)
    · exact absurd h.1 (Nat.not_lt.mpr hfull)
    · exact absurd h.1 (Nat.not_lt.mpr hfull)
    · unfold systemExecute
      rw [hslot]
  by_cases hf : k.Refused a
  · rcases k.executeFlags_cases a x with ⟨h, -⟩ | ⟨-, f, h, hv⟩ | ⟨h, -⟩
    · exact absurd hf h
    · refine Or.inl ⟨⟨hc, hf⟩, x, f, hx, hv, ?_⟩
      unfold systemExecute
      rw [hslot]
      simp only [h, error_bind]
    · exact absurd hf h
  have hleak : ¬ k.SlotLeaks a := fun h => hf h.2
  by_cases hr : k.Rejected a
  · rcases k.executeFlags_cases a x with ⟨-, h, -⟩ | ⟨h, -⟩ | ⟨-, -, f, h⟩
    · exact absurd hr h
    · exact absurd h hf
    · refine Or.inr (Or.inr (Or.inl ⟨hleak, fun h => h.2.2.1 hr, fun h => h.2.2.1 hr, _, ?_,
        ((inSlot_allocated k x).modifyTask f).taskDeallocate hx hc⟩))
      unfold systemExecute
      rw [hslot]
      simp only [h, error_bind]
  rw [systemExecute_eq hslot hf hr]
  cases ha : a.kernelTask with
  | true =>
    have hload : (k.prepared a x).executeLoad img a noise x = .ok ((k.prepared a x).modifyTask x
        fun t => { t with terminal := none, pageId := -1 }) := by
      simp [executeLoad, ha]
    refine Or.inr (Or.inr (Or.inr ⟨hleak, fun h => ?_, ⟨hc, hf, hr, by simp [ha]⟩, x, _,
      loaded_kernelTask hx hr ha, by rw [hload, ok_bind]⟩))
    rw [h.2.2.2.1] at ha
    cases ha
  | false =>
    cases hn : a.newTerminal with
    | false =>
      have hfails : ¬ k.WindowFails a := by
        rintro ⟨-, -, -, -, h, -⟩
        rw [hn] at h
        cases h
      rcases @executeLoad_shared k a x img noise hx hc hf hr ha hn with
        ⟨hl, k', hload, hu⟩ | ⟨hl, k', hload, hld⟩
      · exact Or.inr (Or.inr (Or.inl ⟨hleak, hfails, hl, k', by rw [hload, error_bind], hu⟩))
      · exact Or.inr (Or.inr (Or.inr ⟨hleak, hfails, hl, x, k', hld, by rw [hload, ok_bind]⟩))
    | true =>
      rcases @executeLoad_own k a x img noise hx hc hf hr hk ha hn with
        ⟨hfails, ⟨k', hload, hcount⟩ | ⟨k', hload, hinvalid⟩⟩ | ⟨hfails, hl, k', hload, hu⟩ |
          ⟨hfails, hl, k', hload, hld⟩
      · exact Or.inr (Or.inl ⟨hfails, Or.inl ⟨k', by rw [hload, error_bind], hcount⟩⟩)
      · refine Or.inr (Or.inl ⟨hfails, Or.inr ⟨_, by rw [hload, ok_bind], ?_⟩⟩)
        rw [(k'.executeEnter_running a x).1, (k'.executeEnter_running a x).2, hinvalid]
      · exact Or.inr (Or.inr (Or.inl ⟨hleak, hfails, hl, k', by rw [hload, error_bind], hu⟩))
      · exact Or.inr (Or.inr (Or.inr ⟨hleak, hfails, hl, x, k', hld, by rw [hload, ok_bind]⟩))

end Kernel

end AuroraOS
