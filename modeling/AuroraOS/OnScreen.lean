/-
# Windows and cursor stay on the screen

Every window on the stack is at a position that `is_valid_position` accepts, and the cursor is
where all of it can be seen.  A new window is placed by the index of its slot, a drag is checked
before the window moves, and the cursor is clamped on each axis, so `OnScreen` holds in every
run, whatever the mouse sends.

The invariant does not depend on the rest of the kernel being sound: the calls that make, raise
and destroy windows keep it in any state.
-/
import AuroraOS.Pointer

namespace AuroraOS

open Ring Machine

namespace Kernel

/-! ## The statement -/

/-- **The windows and the cursor are on the screen.** -/
structure OnScreen (k : Kernel) : Prop where
  slots : k.gui.windowStack.length = guiMaxWindowNum
  window : ∀ t, some t ∈ k.gui.windowStack →
    GuiWindow.isValidPosition (k.term (some t)).win.termX (k.term (some t)).win.termY = true
  x : 0 ≤ k.mouse.x ∧ k.mouse.x ≤ vgaWidth - 1 - 8
  y : 0 ≤ k.mouse.y ∧ k.mouse.y ≤ vgaHeight - 1 - 8

/-- The value of an `int16_t` variable after an assignment. -/
def int16 (z : ℤ) : ℤ := (BitVec.ofInt 16 z).toInt

/-- `mouse_interrupt_handler` behind the button handlers, with `mouse_x` and `mouse_y` as
`int16_t` variables. -/
def mouseTailInt16 (k : Kernel) (flags dx dy : UInt8) : Kernel :=
  let m := k.mouseTail flags dx dy
  { m with mouse := { m.mouse with x := int16 m.mouse.x, y := int16 m.mouse.y } }

/-- A call in any state: the two halves of a packet, the functions that make, raise and destroy
windows, and those that start and end tasks. -/
inductive WindowOp where
  | packet (noise : Noise) (flags dx dy : UInt8)
  | packetEnd (flags dx dy : UInt8)
  | newWindow (win : TermId)
  | activateWindow (win : TermId)
  | destroyWindow (win : TermId)
  | execute (noise : Noise) (a : ExecuteArgs)
  | halt (noise : Noise) (status : BitVec 32)
  | haltTerminal (noise : Noise) (t : TermId)

/-- The kernel behind a call. -/
def windowOp (img : FsImage) (k : Kernel) : WindowOp → Except Fault Kernel
  | .packet noise flags dx dy => k.mouseInterruptHandler img noise flags dx dy
  | .packetEnd flags dx dy => .ok (k.mouseTail flags dx dy)
  | .newWindow win => .ok ((k.guiNewWindow win).getD k)
  | .activateWindow win => .ok (k.guiActivateWindow win)
  | .destroyWindow win => .ok (k.guiDestroyWindow win)
  | .execute noise a =>
    match k.systemExecute img noise a with
    | .ok k => .ok k
    | .error k => .ok k
  | .halt noise status => k.systemHalt noise status
  | .haltTerminal noise t => k.taskHaltTerminal noise t

variable {k k' k₀ : Kernel} {img : FsImage} {noise : Noise} {l : Label} {x : TaskId}

/-! ## The stack -/

/-- No window is on the stack that was not there before. -/
def NoNewWindow (g g' : Gui) : Prop :=
  g'.windowStack.length = g.windowStack.length ∧
    ∀ t : TermId, some t ∈ g'.windowStack → some t ∈ g.windowStack

theorem NoNewWindow.refl (g : Gui) : NoNewWindow g g := ⟨rfl, fun _ => id⟩

/-- A window comes to the top. -/
theorem noNewWindow_raise {g : Gui} {idx : ℕ} {win : TermId}
    (hidx : g.findWindowIdx (some win) = some idx) : NoNewWindow g (g.raise idx win) := by
  obtain ⟨hlt, heq, -⟩ := List.findIdx?_eq_some_iff_getElem.mp hidx
  have hmem : some win ∈ g.windowStack := (of_decide_eq_true heq) ▸ List.getElem_mem hlt
  constructor
  · simp only [Gui.raise, List.length_append, List.length_cons, List.length_take,
      List.length_drop]
    omega
  · intro t ht
    rcases List.mem_append.mp ht with hm | hm
    · rcases List.mem_cons.mp hm with he | hm
      · rw [he]
        exact hmem
      · exact List.mem_of_mem_take hm
    · exact List.mem_of_mem_drop hm

theorem noNewWindow_activated (g : Gui) (o : Option TermId) : NoNewWindow g (activated g o) := by
  cases o with
  | none => exact .refl g
  | some t =>
    unfold activated
    cases hidx : g.findWindowIdx (some t) with
    | none =>
      simp only [hidx]
      exact .refl g
    | some idx =>
      simp only [hidx]
      split
      · exact .refl g
      · exact noNewWindow_raise hidx

/-- A window is taken off the stack. -/
theorem noNewWindow_destroyWindow (g : Gui) (win : TermId) :
    NoNewWindow g (g.destroyWindow win) := by
  unfold Gui.destroyWindow
  cases hidx : g.findWindowIdx (some win) with
  | none => exact .refl g
  | some idx =>
    obtain ⟨hlt, -, -⟩ := List.findIdx?_eq_some_iff_getElem.mp hidx
    constructor
    · simp only [Gui.remove, List.length_append, List.length_cons, List.length_nil,
        List.length_take, List.length_drop]
      omega
    · intro t ht
      rcases List.mem_append.mp ht with hm | hm
      · rcases List.mem_append.mp hm with hm | hm
        · exact List.mem_of_mem_take hm
        · exact List.mem_of_mem_drop hm
      · exact absurd (List.mem_singleton.mp hm) (by simp)

/-- The windows that are on the stack still are where they were. -/
theorem OnScreen.of_noNew (h : k.OnScreen) (hg : NoNewWindow k.gui k'.gui)
    (hwin : ∀ t, some t ∈ k.gui.windowStack → (k'.term (some t)).win = (k.term (some t)).win)
    (hmouse : k'.mouse = k.mouse) : k'.OnScreen where
  slots := hg.1.trans h.slots
  window t ht := by
    have hold := hg.2 t ht
    rw [hwin t hold]
    exact h.window t hold
  x := by rw [hmouse]; exact h.x
  y := by rw [hmouse]; exact h.y

theorem OnScreen.of_eq (h : k.OnScreen) (hstack : k'.gui.windowStack = k.gui.windowStack)
    (hwin : ∀ t, (k'.term (some t)).win = (k.term (some t)).win) (hmouse : k'.mouse = k.mouse) :
    k'.OnScreen :=
  h.of_noNew ⟨by rw [hstack], fun _ ht => hstack ▸ ht⟩ (fun t _ => hwin t) hmouse

/-- A terminal whose window stays where it is. -/
theorem OnScreen.modifyTerm (h : k.OnScreen) (t : Option TermId) {f : Terminal → Terminal}
    (hf : ∀ term, (f term).win = term.win) : (k.modifyTerm t f).OnScreen := by
  refine h.of_eq rfl (fun u => ?_) rfl
  rw [modifyTerm_term]
  by_cases hu : some u = t
  · rw [hu, Function.update_self, hf]
  · rw [Function.update_of_ne hu]

theorem OnScreen.guiDestroyWindow (h : k.OnScreen) (win : TermId) :
    (k.guiDestroyWindow win).OnScreen :=
  h.of_noNew (noNewWindow_destroyWindow k.gui win) (fun _ _ => rfl) rfl

theorem OnScreen.guiActivateWindow (h : k.OnScreen) (win : TermId) :
    (k.guiActivateWindow win).OnScreen := by
  have hgui := k.guiActivateWindow_gui win
  obtain ⟨g, f, v, r, he, -, -⟩ := k.guiActivateWindow_eq win
  refine h.of_noNew (hgui ▸ noNewWindow_activated k.gui (some win)) (fun t _ => ?_) ?_
  · rw [he]
    rfl
  · rw [he]
    rfl

/-- A position inside the screen. -/
theorem isValidPosition_iff (termX termY : ℤ) :
    GuiWindow.isValidPosition termX termY = true ↔
      (6 ≤ termX ∧ termX ≤ 378) ∧ 21 ≤ termY ∧ termY ≤ 284 := by
  simp only [GuiWindow.isValidPosition, guiWinLeftRightMargin, terminalWidthPixel, vgaWidth,
    guiWinTitleBarHeight, terminalHeightPixel, guiWinDownMargin, vgaHeight, Bool.and_eq_true,
    Bool.not_eq_true', decide_eq_false_iff_not]
  omega

/-- **A new window** is placed by its index in the stack, and there are only five. -/
theorem OnScreen.guiNewWindow (h : k.OnScreen) {win : TermId} (he : k.guiNewWindow win = some k') :
    k'.OnScreen := by
  unfold Kernel.guiNewWindow at he
  split at he
  · cases he
  cases hidx : k.gui.findWindowIdx none with
  | none =>
    rw [hidx] at he
    cases he
  | some idx =>
    rw [hidx] at he
    obtain ⟨hlt, -, -⟩ := List.findIdx?_eq_some_iff_getElem.mp hidx
    have hslots := h.slots
    have hplace : idx < 5 := by
      rw [hslots] at hlt
      exact hlt
    have hterm : k'.term = Function.update k.term (some win) { k.term (some win) with
        win := { termX := 50 + 50 * idx, termY := 50 + 50 * idx, terminalId := win } } := by
      cases he
      rfl
    have hstack : k'.gui.windowStack = k.gui.windowStack.set idx (some win) := by
      cases he
      rfl
    have hmouse : k'.mouse = k.mouse := by
      cases he
      rfl
    refine ⟨?_, fun t ht => ?_, by rw [hmouse]; exact h.x, by rw [hmouse]; exact h.y⟩
    · rw [hstack, List.length_set, hslots]
    · rw [hterm]
      by_cases hwin : t = win
      · rw [hwin, Function.update_self, isValidPosition_iff]
        simp only
        omega
      · rw [Function.update_of_ne (by simpa using hwin)]
        rw [hstack] at ht
        rcases List.mem_or_eq_of_mem_set ht with hm | he
        · exact h.window t hm
        · exact absurd (Option.some.inj he) hwin

/-! ## The start of a task -/

/-- Both ways out of a part of `system_execute`. -/
def BothOnScreen (r : Except Kernel Kernel) : Prop :=
  (∀ k, r = .ok k → k.OnScreen) ∧ ∀ k, r = .error k → k.OnScreen

theorem bothOnScreen_ok (h : k.OnScreen) : BothOnScreen (.ok k) := by
  constructor
  · rintro _ ⟨⟩
    exact h
  · rintro _ ⟨⟩

theorem bothOnScreen_error (h : k.OnScreen) : BothOnScreen (.error k) := by
  constructor
  · rintro _ ⟨⟩
  · rintro _ ⟨⟩
    exact h

theorem BothOnScreen.bind {r : Except Kernel Kernel} {f : Kernel → Except Kernel Kernel}
    (h : BothOnScreen r) (hf : ∀ k, k.OnScreen → BothOnScreen (f k)) : BothOnScreen (r >>= f) := by
  cases hr : r with
  | ok k => exact hf k (h.1 k hr)
  | error k => exact bothOnScreen_error (h.2 k hr)

theorem BothOnScreen.ite {c : Prop} [Decidable c] {r r' : Except Kernel Kernel}
    (h : BothOnScreen r) (h' : BothOnScreen r') : BothOnScreen (if c then r else r') := by
  split
  · exact h
  · exact h'

theorem OnScreen.modifyTask (h : k.OnScreen) (x : TaskId) (f : Task → Task) :
    (k.modifyTask x f).OnScreen :=
  h.of_eq rfl (fun _ => rfl) rfl

theorem OnScreen.taskDeallocate (h : k.OnScreen) (x : TaskId) : (k.taskDeallocate x).OnScreen :=
  h.of_eq rfl (fun _ => rfl) rfl

theorem OnScreen.vidmem (h : k.OnScreen) (v : Vidmem) :
    ({ k with vidmem := v } : Kernel).OnScreen :=
  h.of_eq rfl (fun _ => rfl) rfl

theorem OnScreen.terminalSetRunning (h : k.OnScreen) (t : Option TermId) :
    (k.terminalSetRunning t).OnScreen := by
  obtain ⟨v, r, he⟩ := k.terminalSetRunning_eq t
  rw [he]
  exact h.of_eq rfl (fun _ => rfl) rfl

theorem OnScreen.executeFlags (h : k.OnScreen) (a : ExecuteArgs) (x : TaskId) :
    BothOnScreen (k.executeFlags a x) := by
  unfold Kernel.executeFlags
  simp only
  refine BothOnScreen.ite (bothOnScreen_error ((h.modifyTask x _).taskDeallocate x)) ?_
  refine BothOnScreen.ite (bothOnScreen_error (h.modifyTask x _)) ?_
  refine BothOnScreen.ite (bothOnScreen_error ((h.modifyTask x _).taskDeallocate x)) ?_
  refine BothOnScreen.ite (bothOnScreen_error ((h.modifyTask x _).taskDeallocate x)) ?_
  refine BothOnScreen.ite ?_ ?_
  · exact bothOnScreen_error (((h.modifyTask x _).modifyTask x _).taskDeallocate x)
  · exact bothOnScreen_ok (((h.modifyTask x _).modifyTask x _).modifyTask x _)

theorem OnScreen.executeNewTerminal (h : k.OnScreen) (x : TaskId) :
    BothOnScreen (k.executeNewTerminal x) := by
  unfold Kernel.executeNewTerminal terminalAllocate
  simp only
  cases (List.finRange 5).find? fun t => !((k.modifyTask x fun t =>
      { t with flags := { t.flags with terminalOwner := true } }).term (some t)).valid with
  | none => exact bothOnScreen_error ((h.modifyTask x _).taskDeallocate x)
  | some t =>
    simp only [Option.map_some]
    have hopen := (((h.modifyTask x fun t => { t with
      flags := { t.flags with terminalOwner := true } }).modifyTerm (some t)
        (f := Terminal.allocate) fun _ => rfl).modifyTask x fun task =>
          { task with terminal := some t }).vidmem (k.vidmem.terminalVidmemOpen t)
    split
    · next m hm => exact bothOnScreen_ok (hopen.guiNewWindow hm)
    · refine bothOnScreen_ok (OnScreen.taskDeallocate ?_ x)
      exact (hopen.vidmem _).modifyTerm (some t) fun _ => rfl

theorem OnScreen.executeProgram (h : k.OnScreen) (img : FsImage) (a : ExecuteArgs) (noise : Noise)
    (x : TaskId) : BothOnScreen (k.executeProgram img a noise x) := by
  unfold Kernel.executeProgram
  simp only
  generalize k.paging.taskPagingAllocateAndSet img (executeParseCommand a.command).1 noise.stack = r
  have hpaged : ({ k.modifyTask x fun t => { t with pageId := r.2 } with
      paging := r.1 } : Kernel).OnScreen := h.of_eq rfl (fun _ => rfl) rfl
  split
  · split
    · next t _ _ =>
      refine bothOnScreen_error (OnScreen.taskDeallocate ?_ x)
      exact ((hpaged.guiDestroyWindow t).vidmem _).modifyTerm (some t) fun _ => rfl
    · exact bothOnScreen_error (hpaged.taskDeallocate x)
  · split
    · exact bothOnScreen_ok (hpaged.terminalSetRunning none)
    · next t _ =>
      refine bothOnScreen_ok (OnScreen.terminalSetRunning ?_ (some t))
      refine OnScreen.guiActivateWindow ?_ t
      exact hpaged.of_eq rfl (fun _ => rfl) rfl

theorem OnScreen.executeLoad (h : k.OnScreen) (img : FsImage) (a : ExecuteArgs) (noise : Noise)
    (x : TaskId) : BothOnScreen (k.executeLoad img a noise x) := by
  unfold Kernel.executeLoad
  split
  · exact bothOnScreen_ok (h.modifyTask x _)
  · refine BothOnScreen.bind ?_ fun m hm => hm.executeProgram img a noise x
    unfold executeTerminal
    split
    · exact h.executeNewTerminal x
    · exact bothOnScreen_ok (h.modifyTask x _)

theorem OnScreen.executeSchedule (h : k.OnScreen) (a : ExecuteArgs) (x : TaskId) :
    (k.executeSchedule a x).OnScreen := by
  have hhead : ((k.modifyTask x fun t =>
      { t with remainTime := if t.flags.idleTask then 0 else schedTaskTime }).schedInsertToHead
        x).OnScreen :=
    h.of_eq rfl (fun _ => rfl) rfl
  unfold Kernel.executeSchedule
  simp only
  split
  · exact hhead.of_eq rfl (fun _ => rfl) rfl
  · exact hhead

theorem OnScreen.executeLaunch (h : k.OnScreen) (a : ExecuteArgs) (x : TaskId) :
    (k.executeLaunch a x).OnScreen := by
  unfold Kernel.executeLaunch
  simp only
  split
  · exact h.of_eq rfl (fun _ => rfl) rfl
  · exact h.of_eq rfl (fun _ => rfl) rfl

theorem OnScreen.taskAllocateNewSlot (h : k.OnScreen) : k.taskAllocateNewSlot.1.OnScreen := by
  unfold Kernel.taskAllocateNewSlot
  split
  · exact h
  · simp only
    split
    · exact h.of_eq rfl (fun _ => rfl) rfl
    · exact h.of_eq rfl (fun _ => rfl) rfl

/-- **`system_execute`** keeps the windows on the screen, whether it succeeds or not. -/
theorem OnScreen.systemExecute (h : k.OnScreen) (img : FsImage) (noise : Noise) (a : ExecuteArgs) :
    BothOnScreen (k.systemExecute img noise a) := by
  have hslot := h.taskAllocateNewSlot
  unfold Kernel.systemExecute
  split
  · next m hm =>
    rw [hm] at hslot
    exact bothOnScreen_error hslot
  · next m x hm =>
    rw [hm] at hslot
    refine BothOnScreen.bind (hslot.executeFlags a x) fun k₁ h₁ => ?_
    have hstrings : (k₁.executeStrings a x).OnScreen := h₁.of_eq rfl (fun _ => rfl) rfl
    refine BothOnScreen.bind (hstrings.executeLoad img a noise x) fun k₂ h₂ => ?_
    have hinit : (k₂.executeInit x).OnScreen := h₂.modifyTask x _
    exact bothOnScreen_ok ((hinit.executeSchedule a x).executeLaunch a x)

/-! ## The end of a task -/

/-- The windows behind the end of a task. -/
theorem TornDown.noNewWindow (ht : TornDown x k k') : NoNewWindow k.gui k'.gui ∧
    ∀ t, (k'.term (some t)).win = (k.term (some t)).win := by
  cases ho : (k.task x).flags.terminalOwner with
  | true =>
    obtain ⟨t, -, -, -, hterm, -, hgui⟩ := ht.owned ho
    refine ⟨hgui ▸ noNewWindow_destroyWindow k.gui t, fun u => ?_⟩
    rw [hterm]
    by_cases hu : some u = some t
    · rw [hu, Function.update_self]
    · rw [Function.update_of_ne hu]
  | false =>
    obtain ⟨hterm, -, hgui, -⟩ := ht.shared ho
    exact ⟨hgui ▸ .refl k.gui, fun u => by rw [hterm]⟩

theorem OnScreen.tearDownTask (h : k.OnScreen) (he : k.tearDownTask x = .ok k') :
    k'.OnScreen := by
  cases hv : (k.task x).valid with
  | false =>
    unfold Kernel.tearDownTask at he
    rw [if_pos (by simp [hv])] at he
    cases he
    exact h
  | true =>
    obtain ⟨hgui, hwin⟩ := (tearDownTask_tornDown he hv).noNewWindow
    exact h.of_noNew hgui (fun t _ => hwin t) (tearDownTask_mouse he)

theorem OnScreen.schedLaunch (h : k.OnScreen) (he : k.schedLaunchToCurrentHead noise = .ok k') :
    k'.OnScreen := by
  have hs := schedLaunch_scheduled he
  exact h.of_eq (by rw [hs.gui]) (fun u => by rw [hs.term]) (schedLaunch_mouse he)

theorem OnScreen.systemHalt (h : k.OnScreen) {status : BitVec 32}
    (he : k.systemHalt noise status = .ok k') : k'.OnScreen := by
  unfold Kernel.systemHalt at he
  simp only at he
  split at he
  · cases he
  obtain ⟨k₁, htear, he⟩ := bind_eq_ok.mp he
  have h₁ := h.tearDownTask htear
  split at he
  · have hp := haltToParent_eq he
    exact h₁.of_eq (by rw [hp.gui]) (fun u => by rw [hp.term]) (haltToParent_mouse he)
  · obtain ⟨k₂, hsched, he⟩ := bind_eq_ok.mp he
    split at he
    · cases he
    · cases he
      exact h₁.schedLaunch hsched

theorem OnScreen.taskHaltTerminal (h : k.OnScreen) {t : TermId}
    (he : k.taskHaltTerminal noise t = .ok k') : k'.OnScreen := by
  unfold Kernel.taskHaltTerminal at he
  cases hx : k.terminalFgTask t with
  | none =>
    simp only [hx] at he
    cases he
    obtain ⟨v, r, hv⟩ := k.terminalFocusPrintf_eq
    rw [hv]
    exact h.of_eq rfl (fun _ => rfl) rfl
  | some x =>
    simp only [hx] at he
    split at he
    · exact h.systemHalt he
    · exact h.tearDownTask he

/-! ## The mouse -/

theorem OnScreen.guiHandleMousePress (h : k.OnScreen) (x y : ℤ) :
    (k.guiHandleMousePress x y).OnScreen := by
  unfold Kernel.guiHandleMousePress
  split
  · split
    · exact h.of_eq rfl (fun _ => rfl) rfl
    · exact h
  · next i hi =>
    clear hi
    simp only
    split
    · split
      · exact (h.guiActivateWindow _).of_eq rfl (fun _ => rfl) rfl
      · exact h.of_eq rfl (fun _ => rfl) rfl
    · split
      · exact h.guiActivateWindow _
      · exact h

theorem OnScreen.guiHandleMouseRelease (h : k.OnScreen) {x y : ℤ}
    (he : k.guiHandleMouseRelease img noise x y = .ok k') : k'.OnScreen := by
  have htitle : ({ k with gui := { k.gui with mousePressedOnTitle := false } } : Kernel).OnScreen :=
    h.of_eq rfl (fun _ => rfl) rfl
  unfold Kernel.guiHandleMouseRelease at he
  simp only at he
  split at he
  · exact htitle.taskHaltTerminal he
  · split at he
    · have hbutton : ({ k with gui := { k.gui with
          mousePressedOnTitle := false, termButtonPressed := false } } : Kernel).OnScreen :=
        h.of_eq rfl (fun _ => rfl) rfl
      have hboth := hbutton.systemExecute img noise shellArgs
      split at he
      · next m hm =>
        cases he
        exact hboth.1 _ hm
      · next m hm =>
        cases he
        exact hboth.2 _ hm
    · cases he
      exact h.of_eq rfl (fun _ => rfl) rfl

/-- The first half of a packet. -/
theorem OnScreen.mouseInterruptHandler (h : k.OnScreen) {flags dx dy : UInt8}
    (he : k.mouseInterruptHandler img noise flags dx dy = .ok k') : k'.OnScreen := by
  have hpush : (k.push (.mouseTail flags dx dy)).OnScreen := h.modifyTask _ _
  unfold Kernel.mouseInterruptHandler at he
  split at he
  · cases he
    exact h
  split at he
  · cases he
    exact h
  split at he
  · cases he
    exact h
  simp only at he
  split at he
  · cases he
    exact hpush.guiHandleMousePress _ _
  split at he
  · exact hpush.guiHandleMouseRelease he
  · cases he
    exact hpush

theorem clampCursor_range (position : ℤ) {size : ℤ} (h : 9 ≤ size) :
    0 ≤ clampCursor position size ∧ clampCursor position size ≤ size - 1 - 8 := by
  unfold clampCursor
  split_ifs <;> omega

theorem OnScreen.moveWindow (h : k.OnScreen) (t : TermId) {win : GuiWindow}
    (hwin : GuiWindow.isValidPosition win.termX win.termY = true) :
    (k.modifyTerm (some t) fun term => { term with win := win }).OnScreen := by
  refine ⟨h.slots, fun u hu => ?_, h.x, h.y⟩
  rw [modifyTerm_term]
  by_cases hut : u = t
  · rw [hut, Function.update_self]
    exact hwin
  · rw [Function.update_of_ne (by simpa using hut)]
    exact h.window u hu

/-- **A drag** moves the window on top to a position that has been checked. -/
theorem OnScreen.guiHandleMouseMove (h : k.OnScreen) (deltaX deltaY : ℤ) :
    (k.guiHandleMouseMove deltaX deltaY).1.OnScreen := by
  unfold Kernel.guiHandleMouseMove
  split
  · exact h
  split
  · exact h
  · next t _ =>
    simp only
    split
    · next hvalid => exact h.moveWindow t hvalid
    · exact h

/-- **The second half of a packet** leaves the window on top and the cursor on the screen. -/
theorem OnScreen.mouseTail (h : k.OnScreen) (flags dx dy : UInt8) :
    (k.mouseTail flags dx dy).OnScreen := by
  have hmove := h.guiHandleMouseMove (movement (flags &&& 0x10 != 0) dx)
    (-movement (flags &&& 0x20 != 0) dy)
  exact ⟨hmove.slots, hmove.window, clampCursor_range _ (by decide),
    clampCursor_range _ (by decide)⟩

/-- The range of `int16_t`. -/
theorem int16_of_range {z : ℤ} (h : 0 ≤ z) (h' : z < 2 ^ 15) : int16 z = z :=
  BitVec.toInt_ofInt_eq_self (by decide) (by norm_num; omega) h'

/-- **No 16-bit overflow**: nothing is lost when the position is stored. -/
theorem OnScreen.mouseTailInt16 (h : k.OnScreen) (flags dx dy : UInt8) :
    k.mouseTailInt16 flags dx dy = k.mouseTail flags dx dy := by
  have htail := h.mouseTail flags dx dy
  have hx := htail.x
  have hy := htail.y
  simp only [vgaWidth, vgaHeight] at hx hy
  unfold Kernel.mouseTailInt16
  simp only
  rw [int16_of_range hx.1 (by omega), int16_of_range hy.1 (by omega)]

/-! ## Runs -/

theorem start_onScreen : start.OnScreen := by
  refine ⟨by decide +kernel, fun t ht => ?_, by decide +kernel, by decide +kernel⟩
  have hnone : ∀ t, some t ∉ start.gui.windowStack := by decide +kernel
  exact absurd ht (hnone t)

/-- **A call** in any state keeps the windows and the cursor on the screen. -/
theorem OnScreen.windowOp (h : k.OnScreen) {c : WindowOp}
    (he : k.windowOp img c = .ok k') : k'.OnScreen := by
  cases c with
  | packet noise flags dx dy => exact h.mouseInterruptHandler he
  | packetEnd flags dx dy =>
    cases he
    exact h.mouseTail flags dx dy
  | newWindow win =>
    cases he
    cases hnew : k.guiNewWindow win with
    | none => exact h
    | some m => exact h.guiNewWindow hnew
  | activateWindow win =>
    cases he
    exact h.guiActivateWindow win
  | destroyWindow win =>
    cases he
    exact h.guiDestroyWindow win
  | execute noise a =>
    have hboth := h.systemExecute img noise a
    unfold Kernel.windowOp at he
    simp only at he
    split at he
    · next m hm =>
      cases he
      exact hboth.1 _ hm
    · next m hm =>
      cases he
      exact hboth.2 _ hm
  | halt noise status => exact h.systemHalt he
  | haltTerminal noise t => exact h.taskHaltTerminal he

/-- What stands still is on the screen as before: the windows on the stack belong to terminals
in use. -/
theorem Still.onScreen (h : Still k k') (hs : k.Windowed) (hk : k.OnScreen) : k'.OnScreen := by
  obtain ⟨wins, hholds, hvalid, -⟩ := hs
  refine hk.of_noNew ⟨by rw [h.windowStack], fun _ ht => h.windowStack ▸ ht⟩
    (fun t ht => ?_) h.mouse
  exact h.win _ ((hvalid t).mp ((hholds.mem_windowStack t).mp ht))

/-- What a halt leaves on the screen. -/
theorem Halted.onScreen {status : BitVec 32} (h : Halted noise status k k') (hk : k.OnScreen)
    (hmouse : k'.mouse = k.mouse) : k'.OnScreen := by
  cases h with
  | toParent p k₁ hp ht h =>
    obtain ⟨hgui, hwin⟩ := ht.noNewWindow
    exact hk.of_noNew (h.gui ▸ hgui) (fun t _ => by rw [h.term, hwin]) hmouse
  | alone k₁ hp ht h hne =>
    obtain ⟨hgui, hwin⟩ := ht.noNewWindow
    exact hk.of_noNew (h.gui ▸ hgui) (fun t _ => by rw [h.term, hwin]) hmouse

theorem entered_screen (k : Kernel) (l : Label) :
    (k.entered l).gui = k.gui ∧ (k.entered l).term = k.term ∧ (k.entered l).mouse = k.mouse := by
  unfold entered
  split <;> exact ⟨rfl, rfl, rfl⟩

/-- **A step of the kernel** keeps the windows and the cursor on the screen. -/
theorem OnScreen.step (h : k₀.OnScreen) (hs : k₀.Sound) (he : k₀.step img l = .ok k') :
    k'.OnScreen := by
  obtain ⟨hgui, hterm, hmouse⟩ := k₀.entered_screen l
  have hent : (k₀.entered l).OnScreen :=
    h.of_eq (by rw [hgui]) (fun t => by rw [hterm]) hmouse
  have hwindowed := ((k₀.quiet_entered l).toCalm.sound hs).windowed
  cases step_pointed hs he with
  | still hf hstill => exact hstill.onScreen hwindowed hent
  | packet flags dx dy hstack he hp =>
    have hpush : k₀.enterInterrupt.OnScreen := h.of_eq rfl (fun _ => rfl) rfl
    exact hpush.mouseInterruptHandler hp
  | tail flags dx dy fs hstack he hp =>
    have hpop : k₀.pop.OnScreen := h.modifyTask _ _
    rw [hp]
    exact hpop.mouseTail flags dx dy
  | executed a x ha hn hstack hl hlaunch hm hg =>
    refine h.of_noNew (hg ▸ noNewWindow_activated k₀.gui _) (fun t _ => ?_) hm
    rw [hlaunch.term (some t) fun hnew => absurd hnew (by simp [hn]), hterm]
  | halted k₁ cause hc hw hk₁ hq hhalt hm =>
    exact hhalt.onScreen (hk₁.onScreen hwindowed hent) (hm.trans (hk₁.mouse.trans hmouse).symm)

/-- **Windows and cursor stay on the screen**: in every run of the kernel, and in every run of
the calls that make, raise, move and destroy windows, in any order and with any arguments.  The
second half of a packet never overflows the 16-bit position. -/
theorem windows_onScreen (img : FsImage) :
    (∀ labels k, run (fun k l => k.step img l) start labels = .ok k →
      k.OnScreen ∧ ∀ flags dx dy, k.mouseTailInt16 flags dx dy = k.mouseTail flags dx dy) ∧
    ∀ calls k, run (Kernel.windowOp img) start calls = .ok k →
      k.OnScreen ∧ ∀ flags dx dy, k.mouseTailInt16 flags dx dy = k.mouseTail flags dx dy := by
  constructor
  · intro labels k h
    obtain ⟨-, hk⟩ := run_invariant' (I := fun k => k.Sound ∧ k.OnScreen)
      (fun _ _ _ hi ht => ⟨step_sound hi.1 ht, hi.2.step hi.1 ht⟩) ⟨start_sound, start_onScreen⟩ h
    exact ⟨hk, hk.mouseTailInt16⟩
  · intro calls k h
    have hk : k.OnScreen :=
      run_invariant' (fun _ _ _ hi ht => OnScreen.windowOp hi ht) start_onScreen h
    exact ⟨hk, hk.mouseTailInt16⟩

/-- Two shells, one after the other. -/
theorem windows_onScreen_shells : ∃ k, run (fun k l => k.step programs l) start
    (traceOf (firstTick ++ openShell ++ [.mouse 0x08 0 0])) = .ok k ∧
      k.gui.windowStack = [some 1, some 0, none, none, none] ∧ k.OnScreen := by
  have h : (run (fun k l => k.step programs l) start
      (traceOf (firstTick ++ openShell ++ [.mouse 0x08 0 0]))).toOption.map
        (fun k => k.gui.windowStack) = some [some 1, some 0, none, none, none] := by
    decide +kernel
  obtain ⟨k, hk, hstack⟩ := toOption_map_eq_some.mp h
  exact ⟨k, hk, hstack, ((windows_onScreen programs).1 _ k hk).1⟩

end Kernel

end AuroraOS
