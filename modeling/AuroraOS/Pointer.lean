/-
# What the mouse finds when it comes back

Between two packets of the mouse the kernel does other things, and all of them leave the
pointer, the drag and the windows alone, apart from the start and the end of a task.
`Still` says that much of two kernels, and that nobody has lost a function on a kernel
stack.
-/
import AuroraOS.Effects

namespace AuroraOS

open Ring Machine

/-! ## Kernel stacks -/

/-- The end of `mouse_interrupt_handler`. -/
def Frame.isMouseTail : Frame → Bool
  | .mouseTail _ _ _ => true
  | _ => false

/-- A frame that neither ends a packet of the mouse nor goes back to the program. -/
def Frame.plain : Frame → Bool
  | .mouseTail _ _ _ => false
  | .signalCheck => false
  | _ => true

/-- Only plain frames have been pushed. -/
def Onto (fs gs : List Frame) : Prop := ∃ pre, (∀ f ∈ pre, Frame.plain f = true) ∧ gs = pre ++ fs

theorem Onto.refl (fs : List Frame) : Onto fs fs := ⟨[], by simp, rfl⟩

theorem Onto.push {f : Frame} (hf : f.plain = true) (fs : List Frame) : Onto fs (f :: fs) :=
  ⟨[f], by simpa using hf, rfl⟩

theorem Onto.trans {fs gs hs : List Frame} (h : Onto fs gs) (h' : Onto gs hs) : Onto fs hs := by
  obtain ⟨pre, hpre, rfl⟩ := h
  obtain ⟨pre', hpre', rfl⟩ := h'
  refine ⟨pre' ++ pre, fun f hf => ?_, (List.append_assoc _ _ _).symm⟩
  rcases List.mem_append.mp hf with hf | hf
  · exact hpre' f hf
  · exact hpre f hf

namespace Kernel

/-! ## Nothing moves -/

/-- **The mouse and the windows stand still**, and plain frames are all that is pushed. -/
structure Still (k k' : Kernel) : Prop where
  mouse : k'.mouse = k.mouse
  title : k'.gui.mousePressedOnTitle = k.gui.mousePressedOnTitle
  windowStack : k'.gui.windowStack = k.gui.windowStack
  taskValid : ∀ x, (k'.task x).valid = (k.task x).valid
  stack : ∀ x, (k.task x).valid = true → Onto (k.task x).kstack (k'.task x).kstack
  termValid : ∀ t, (k'.term t).valid = (k.term t).valid
  win : ∀ t, (k.term t).valid = true → (k'.term t).win = (k.term t).win

variable {k k' k'' : Kernel} {img : FsImage} {noise : Noise} {l : Label} {x : TaskId}

theorem Still.trans (h : Still k k') (h' : Still k' k'') : Still k k'' where
  mouse := h'.mouse.trans h.mouse
  title := h'.title.trans h.title
  windowStack := h'.windowStack.trans h.windowStack
  taskValid x := (h'.taskValid x).trans (h.taskValid x)
  stack x hx := (h.stack x hx).trans (h'.stack x ((h.taskValid x).trans hx))
  termValid t := (h'.termValid t).trans (h.termValid t)
  win t ht := (h'.win t ((h.termValid t).trans ht)).trans (h.win t ht)

/-- Only the mouse, the windows, the tasks and the terminals count. -/
theorem Still.of_eq (hm : k'.mouse = k.mouse)
    (htitle : k'.gui.mousePressedOnTitle = k.gui.mousePressedOnTitle)
    (hstack : k'.gui.windowStack = k.gui.windowStack) (htask : k'.task = k.task)
    (hterm : k'.term = k.term) : Still k k' where
  mouse := hm
  title := htitle
  windowStack := hstack
  taskValid x := by rw [htask]
  stack x _ := by rw [htask]; exact .refl _
  termValid t := by rw [hterm]
  win t _ := by rw [hterm]

theorem Still.refl (k : Kernel) : Still k k := .of_eq rfl rfl rfl rfl rfl

theorem still_modifyTask (k : Kernel) (x : TaskId) {f : Task → Task}
    (hf : ∀ t : Task, (f t).valid = t.valid ∧ Onto t.kstack (f t).kstack) :
    Still k (k.modifyTask x f) := by
  have htask : ∀ y, ((k.modifyTask x f).task y).valid = (k.task y).valid ∧
      Onto (k.task y).kstack ((k.modifyTask x f).task y).kstack := by
    intro y
    by_cases hy : y = x
    · rw [hy, modifyTask_task, Function.update_self]
      exact hf (k.task x)
    · rw [modifyTask_task, Function.update_of_ne hy]
      exact ⟨rfl, .refl _⟩
  exact ⟨rfl, rfl, rfl, fun y => (htask y).1, fun y _ => (htask y).2, fun _ => rfl, fun _ _ => rfl⟩

theorem still_modifyTerm (k : Kernel) (t : Option TermId) {f : Terminal → Terminal}
    (hf : (f (k.term t)).valid = (k.term t).valid ∧ (f (k.term t)).win = (k.term t).win) :
    Still k (k.modifyTerm t f) := by
  have hterm : ∀ u, ((k.modifyTerm t f).term u).valid = (k.term u).valid ∧
      ((k.modifyTerm t f).term u).win = (k.term u).win := by
    intro u
    by_cases hu : u = t
    · rw [hu, modifyTerm_term, Function.update_self]
      exact hf
    · rw [modifyTerm_term, Function.update_of_ne hu]
      exact ⟨rfl, rfl⟩
  exact ⟨rfl, rfl, rfl, fun _ => rfl, fun _ _ => .refl _, fun u => (hterm u).1,
    fun u _ => (hterm u).2⟩

theorem still_push (k : Kernel) {f : Frame} (hf : f.plain = true) : Still k (k.push f) :=
  k.still_modifyTask k.running fun _ => ⟨rfl, .push hf _⟩

theorem still_modifySignals (k : Kernel) (x : TaskId) (f : SignalStruct → SignalStruct) :
    Still k (k.modifySignals x f) :=
  k.still_modifyTask x fun _ => ⟨rfl, .refl _⟩

theorem still_schedRefillTime (k : Kernel) (x : TaskId) : Still k (k.schedRefillTime x) :=
  k.still_modifyTask x fun _ => ⟨rfl, .refl _⟩

theorem still_ret (k : Kernel) (value : ℤ) : Still k (k.ret value) := .of_eq rfl rfl rfl rfl rfl

theorem still_moveTaskAfterNode (k : Kernel) (x : TaskId) (node : ListNode) :
    Still k (k.moveTaskAfterNode x node) := .of_eq rfl rfl rfl rfl rfl

theorem still_terminalSetRunning (k : Kernel) (t : Option TermId) :
    Still k (k.terminalSetRunning t) := by
  obtain ⟨v, r, h⟩ := k.terminalSetRunning_eq t
  rw [h]
  exact .of_eq rfl rfl rfl rfl rfl

theorem still_taskChangeFocus (k : Kernel) (t : TermId) : Still k (k.taskChangeFocus t) := by
  obtain ⟨v, r, h⟩ := k.taskChangeFocus_eq t
  rw [h]
  exact .of_eq rfl rfl rfl rfl rfl

theorem still_signalSend (k : Kernel) (signal : ℕ) : Still k (k.signalSend signal) := by
  unfold signalSend
  split
  · cases k.focusTask with
    | none => exact .refl k
    | some f => exact k.still_modifySignals f _
  · exact k.still_modifySignals _ _

theorem still_schedMoveRunningToLast (k : Kernel) : Still k k.schedMoveRunningToLast := by
  unfold schedMoveRunningToLast
  split
  · exact k.still_moveTaskAfterNode _ _
  · exact .refl k

/-! ## The choice of the next task -/

theorem launchTo_mouse {toRun : TaskId} (h : k.launchTo toRun noise = .ok k') :
    k'.mouse = k.mouse := by
  rcases launchTo_eq h with ⟨rfl, -⟩ | ⟨-, -, v, r, p, rfl, -⟩ <;> rfl

theorem schedLaunch_mouse (h : k.schedLaunchToCurrentHead noise = .ok k') :
    k'.mouse = k.mouse := by
  unfold schedLaunchToCurrentHead at h
  split at h
  · cases h
    rfl
  obtain ⟨toRun, -, h⟩ := bind_eq_ok.mp h
  split at h
  · obtain ⟨toRun', -, h⟩ := bind_eq_ok.mp h
    have hmouse := launchTo_mouse h
    exact hmouse
  · exact launchTo_mouse h

theorem still_schedLaunch (h : k.schedLaunchToCurrentHead noise = .ok k') : Still k k' := by
  have hs := schedLaunch_scheduled h
  exact .of_eq (schedLaunch_mouse h) (by rw [hs.gui]) (by rw [hs.gui]) hs.task hs.term

/-! ## The interrupt handlers -/

theorem still_pitRender (k : Kernel) : Still k k.pitRender := by
  unfold pitRender
  simp only
  split
  · exact .of_eq rfl rfl rfl rfl rfl
  · exact .of_eq rfl rfl rfl rfl rfl

theorem still_pitAlarm (k : Kernel) : Still k k.pitAlarm := by
  unfold pitAlarm
  cases k.focusTask with
  | none => exact .refl k
  | some f =>
    simp only
    split
    · exact ((k.still_modifySignals f _).trans (still_signalSend _ _)).trans
        (still_modifySignals _ f _)
    · exact k.still_modifySignals f _

theorem still_pitSchedule (h : k.pitSchedule noise = .ok k') : Still k k' := by
  unfold pitSchedule at h
  simp only at h
  have hdec : Still k (k.modifyTask k.running fun t => { t with
      remainTime := t.remainTime - schedPitInterval }) :=
    k.still_modifyTask k.running fun _ => ⟨rfl, .refl _⟩
  split at h
  · exact k.still_schedMoveRunningToLast.trans (still_schedLaunch h)
  split at h
  · exact ((hdec.trans (still_schedRefillTime _ _)).trans (still_schedMoveRunningToLast _)).trans
      (still_schedLaunch h)
  · cases h
    exact hdec

theorem still_pitInterruptHandler (h : k.pitInterruptHandler noise = .ok k') : Still k k' := by
  unfold pitInterruptHandler at h
  split at h
  · cases h
    exact .refl k
  · exact (k.still_pitRender.trans (still_pitAlarm _)).trans (still_pitSchedule h)

theorem still_rtcTick {m m' : Kernel} {w w' : ℕ} (h : m.rtcTick w x = .ok (m', w')) :
    Still m m' := by
  have htick : Still m (m.modifyTask x tickedTask) := m.still_modifyTask x fun _ => ⟨rfl, .refl _⟩
  rcases rtcTick_cases h with ⟨-, -, rfl⟩ | ⟨-, -, p, -, rfl⟩
  · exact htick
  · have hclear : Still (m.modifyTask x tickedTask)
        ((m.modifyTask x tickedTask).modifyTask p rtcCleared) :=
      still_modifyTask _ p fun _ => ⟨rfl, .refl _⟩
    exact ((htick.trans hclear).trans (still_schedRefillTime _ x)).trans
      (.of_eq rfl rfl rfl rfl rfl)

theorem still_rtcInterruptHandler (h : k.rtcInterruptHandler noise = .ok k') : Still k k' := by
  unfold rtcInterruptHandler at h
  obtain ⟨⟨k₁, wakeCount⟩, hloop, h⟩ := bind_eq_ok.mp h
  have hstill : Still k k₁ := rtcLoop_induction (P := Still k)
    (fun _ _ _ _ _ hm hx => hm.trans (still_rtcTick hx)) (.refl k) hloop
  simp only at h
  split at h
  · exact hstill.trans (still_schedLaunch h)
  · cases h
    exact hstill

theorem typeKey_win (t : Terminal) (kb : Keyboard) (code : ℕ) :
    (t.typeKey kb code).valid = t.valid ∧ (t.typeKey kb code).win = t.win := by
  unfold Terminal.typeKey
  split
  · split <;> exact ⟨rfl, rfl⟩
  · simp only
    split <;> exact ⟨rfl, rfl⟩

theorem pressKey_win {t t' : Terminal} {kb kb' : Keyboard} {code : ℕ} {effect : KeyEffect}
    (h : t.pressKey kb code = .ok (kb', t', effect)) : t'.valid = t.valid ∧ t'.win = t.win := by
  unfold Terminal.pressKey at h
  split at h
  · split at h <;> cases h
    exact ⟨rfl, rfl⟩
  split at h
  · cases h
    exact ⟨rfl, rfl⟩
  split at h
  · cases h
    exact ⟨rfl, rfl⟩
  split at h
  · cases h
    exact ⟨rfl, rfl⟩
  split at h
  · split at h <;> cases h
    exact ⟨rfl, rfl⟩
  · cases h
    exact typeKey_win _ _ _

theorem still_wakeFocus (h : k.wakeFocus noise = .ok k') : Still k k' := by
  unfold wakeFocus at h
  cases hf : k.focusTask with
  | none =>
    simp only [hf] at h
    cases h
  | some f =>
    simp only [hf] at h
    have hclear : Still k (k.modifyTask f fun t => { t with
        flags := { t.flags with waitingTerminal := false } }) :=
      k.still_modifyTask f fun _ => ⟨rfl, .refl _⟩
    exact ((hclear.trans (still_schedRefillTime _ f)).trans (still_moveTaskAfterNode _ _ _)).trans
      (still_schedLaunch h)

/-- The focus task is woken up if the key ends a line. -/
theorem still_wakeIf {wake : Bool} (hstill : Still k k')
    (h : (if wake then k'.wakeFocus noise else .ok k') = .ok k'') : Still k k'' := by
  split at h
  · exact hstill.trans (still_wakeFocus h)
  · cases h
    exact hstill

/-- A key changes the line of a terminal, and the focus. -/
theorem still_handleScanCode {scanCode : UInt8} (h : k.handleScanCode noise scanCode = .ok k') :
    Still k k' := by
  unfold handleScanCode at h
  simp only at h
  split at h
  · cases h
    exact .of_eq rfl rfl rfl rfl rfl
  split at h
  · cases h
    exact .of_eq rfl rfl rfl rfl rfl
  · next f hf =>
    obtain ⟨⟨kb, term, effect⟩, hpress, h⟩ := bind_eq_ok.mp h
    simp only at h
    let k₁ : Kernel := { k.modifyTerm (k.task f).terminal fun _ => term with keyboard := kb }
    have hterm : Still k (k.modifyTerm (k.task f).terminal fun _ => term) :=
      k.still_modifyTerm _ (pressKey_win hpress)
    have h₁ : Still k k₁ := hterm.trans (.of_eq rfl rfl rfl rfl rfl)
    let k₂ : Kernel := if effect.interrupt then k₁.signalSend signalInterrupt else k₁
    have h₂ : Still k₁ k₂ := by
      by_cases hi : effect.interrupt = true
      · simp only [k₂, if_pos hi]
        exact still_signalSend _ _
      · simp only [k₂, if_neg hi]
        exact .refl _
    have h₂' : Still k k₂ := h₁.trans h₂
    cases hi : effect.focus with
    | none =>
      rw [hi] at h
      exact still_wakeIf h₂' h
    | some i =>
      rw [hi] at h
      exact still_wakeIf (h₂'.trans (still_taskChangeFocus _ i)) h

theorem still_keyboardInterruptHandler {scanCode : UInt8}
    (h : k.keyboardInterruptHandler noise scanCode = .ok k') : Still k k' := by
  unfold keyboardInterruptHandler at h
  cases hf : k.focusTask with
  | none =>
    simp only [hf] at h
    exact (k.still_push rfl).trans (still_handleScanCode h)
  | some f =>
    simp only [hf] at h
    exact ((k.still_terminalSetRunning _).trans (still_push _ rfl)).trans (still_handleScanCode h)

/-! ## The system calls -/

theorem readBegin_win (t : Terminal) (nbytes : ℤ) :
    (t.readBegin nbytes).1.valid = t.valid ∧ (t.readBegin nbytes).1.win = t.win := by
  unfold Terminal.readBegin
  simp only
  split <;> exact ⟨rfl, rfl⟩

theorem readEnd_win {t t' : Terminal} {i : ℕ} {cs : List UInt8} (h : t.readEnd i = .ok (cs, t')) :
    t'.valid = t.valid ∧ t'.win = t.win := by
  unfold Terminal.readEnd at h
  split at h
  · obtain ⟨buf, -, h⟩ := bind_eq_ok.mp h
    cases h
    exact ⟨rfl, rfl⟩
  · cases h

theorem still_terminalReadEnd {i : ℕ} (h : k.terminalReadEnd i = .ok k') : Still k k' := by
  unfold terminalReadEnd at h
  obtain ⟨⟨cs, term⟩, hread, h⟩ := bind_eq_ok.mp h
  cases h
  have hterm : Still k (k.modifyTerm k.runningTask.terminal fun _ => term) :=
    k.still_modifyTerm _ (readEnd_win hread)
  exact hterm.trans (still_ret _ _)

theorem still_systemTerminalRead {nbytes : ℤ} (h : k.systemTerminalRead noise nbytes = .ok k') :
    Still k k' := by
  unfold systemTerminalRead at h
  simp only at h
  have hwin := readBegin_win (k.term k.runningTask.terminal) (Terminal.limitBytes nbytes)
  split at h
  · next term i hb =>
    rw [hb] at hwin
    have hterm : Still k (k.modifyTerm k.runningTask.terminal fun _ => term) :=
      k.still_modifyTerm _ hwin
    exact hterm.trans (still_terminalReadEnd h)
  · next term hb =>
    rw [hb] at hwin
    have hterm : Still k (k.modifyTerm k.runningTask.terminal fun _ => term) :=
      k.still_modifyTerm _ hwin
    have hwait := still_modifyTask (k.modifyTerm k.runningTask.terminal fun _ => term) k.running
      (f := fun t => { t with flags := { t.flags with waitingTerminal := true } })
      fun _ => ⟨rfl, .refl _⟩
    exact ((((hterm.trans hwait).trans (still_moveTaskAfterNode _ _ _))).trans
      (still_push _ rfl)).trans (still_schedLaunch h)

theorem still_systemRtcRead (h : k.systemRtcRead noise = .ok k') : Still k k' := by
  unfold systemRtcRead at h
  split at h
  · cases h
    exact k.still_ret _
  · obtain ⟨counter, -, h⟩ := bind_eq_ok.mp h
    have hwait := k.still_modifyTask k.running
      (f := fun t => { t with
        flags := { t.flags with waitingRtc := true }
        rtc := { t.rtc with counter := counter } }) fun _ => ⟨rfl, .refl _⟩
    exact ((hwait.trans (still_moveTaskAfterNode _ _ _)).trans (still_push _ rfl)).trans
      (still_schedLaunch h)

/-- The files and the RTC settings of the running task, and a return value. -/
theorem still_own (k : Kernel) (fa : Task → FileArray) (rtc : Task → RtcControl) (value : ℤ) :
    Still k ((k.modifyTask k.running fun t => { t with
      fileArray := fa t, rtc := rtc t }).ret value) := by
  have hown : Still k (k.modifyTask k.running fun t => { t with
      fileArray := fa t, rtc := rtc t }) := k.still_modifyTask k.running fun _ => ⟨rfl, .refl _⟩
  exact hown.trans (still_ret _ _)

theorem still_systemRead {fd nbytes : ℤ} {bufNull : Bool}
    (h : k.systemRead img noise fd bufNull nbytes = .ok k') : Still k k' := by
  unfold systemRead at h
  split at h
  · next value data fa hread =>
    cases h
    exact k.still_own (fun _ => fa) (·.rtc) value
  · exact still_systemTerminalRead h
  · exact still_systemRtcRead h

theorem still_systemWrite {fd : ℤ} {bufNull : Bool} {word : BitVec 32} {nbytes : ℤ}
    (h : k.systemWrite fd bufNull word nbytes = .ok k') : Still k k' := by
  unfold systemWrite at h
  obtain ⟨⟨value, rtc⟩, -, h⟩ := bind_eq_ok.mp h
  cases h
  exact k.still_own (·.fileArray) (fun _ => rtc) value

theorem still_systemOpen {filename : List UInt8} (h : k.systemOpen img filename = .ok k') :
    Still k k' := by
  unfold systemOpen at h
  obtain ⟨⟨fd, fa, rtc⟩, -, h⟩ := bind_eq_ok.mp h
  cases h
  exact k.still_own (fun _ => fa) (fun _ => rtc) fd

theorem still_systemClose (k : Kernel) (fd : ℤ) : Still k (k.systemClose fd) :=
  k.still_own (fun _ => (k.runningTask.fileArray.systemClose fd).2) (·.rtc) _

theorem still_systemGetargs (k : Kernel) (nbytes : ℤ) : Still k (k.systemGetargs nbytes) := by
  unfold systemGetargs
  split
  · exact k.still_ret _
  · split <;> exact k.still_ret _

theorem still_systemVidmap (k : Kernel) (screenStart : BitVec 32) :
    Still k (k.systemVidmap screenStart) := by
  unfold systemVidmap
  split
  · exact k.still_ret _
  cases k.runningTask.terminal with
  | none => exact k.still_ret _
  | some t =>
    have hmap := k.still_modifyTask k.running (f := fun t => { t with vidmapEnabled := true })
      fun _ => ⟨rfl, .refl _⟩
    exact hmap.trans (.of_eq rfl rfl rfl rfl rfl)

theorem still_systemSetHandler (k : Kernel) (signum : ℤ) (address : ℕ) :
    Still k (k.systemSetHandler signum address) :=
  (k.still_modifySignals _ _).trans (still_ret _ _)

theorem still_systemSigreturn (k : Kernel) (noise : Noise) :
    Still k (k.systemSigreturn noise) :=
  (k.still_modifySignals _ _).trans (.of_eq rfl rfl rfl rfl rfl)

/-- A task that is not started leaves everything in use alone. -/
theorem Untouched.still (h : Untouched k k') : Still k k' where
  mouse := h.mouse
  title := by rw [h.gui]
  windowStack := by rw [h.gui]
  taskValid x := by
    cases hx : (k.task x).valid with
    | true => rw [h.task x hx, hx]
    | false => exact h.free x hx
  stack x hx := by
    rw [h.task x hx]
    exact .refl _
  termValid t := by
    cases ht : (k.term t).valid with
    | true => rw [h.term t ht, ht]
    | false => exact (h.freeTerm t ht).1
  win t ht := by rw [h.term t ht]

/-! ## The start of a task -/

/-- A call of `system_execute` that succeeds has gone through both of its halves. -/
theorem systemExecute_ok {a : ExecuteArgs} (hc : k.taskCount = k.live.card)
    (h : k.systemExecute img noise a = .ok k') :
    ∃ x m, (k.prepared a x).executeLoad img a noise x = .ok m ∧ k' = m.executeEnter a x := by
  rcases taskAllocateNewSlot_cases hc with ⟨-, hslot⟩ | ⟨-, x, hx, hslot⟩
  · unfold systemExecute at h
    rw [hslot] at h
    cases h
  by_cases hf : k.Refused a
  · rcases k.executeFlags_cases a x with ⟨hn, -⟩ | ⟨-, f, hflags, -⟩ | ⟨hn, -⟩
    · exact absurd hf hn
    · unfold systemExecute at h
      rw [hslot] at h
      simp only [hflags, error_bind] at h
      cases h
    · exact absurd hf hn
  by_cases hr : k.Rejected a
  · rcases k.executeFlags_cases a x with ⟨-, hn, -⟩ | ⟨hn, -⟩ | ⟨-, -, f, hflags⟩
    · exact absurd hr hn
    · exact absurd hn hf
    · unfold systemExecute at h
      rw [hslot] at h
      simp only [hflags, error_bind] at h
      cases h
  · rw [systemExecute_eq hslot hf hr] at h
    obtain ⟨m, hm, hk⟩ := bind_eq_ok.mp h
    cases hk
    exact ⟨x, m, hm, rfl⟩

theorem foreground_devices (k : Kernel) (x : TaskId) (t : TermId) :
    (k.foreground x t).task = k.task ∧ (k.foreground x t).mouse = k.mouse ∧
      (k.foreground x t).gui = activated k.gui (some t) := by
  let m : Kernel := taskSetFocusTask { k with
    terminalFgTask := Function.update k.terminalFgTask t (some x) } (some x)
  have hgui : (m.guiActivateWindow t).gui = activated k.gui (some t) := m.guiActivateWindow_gui t
  obtain ⟨g, f, v, r, hg, -, -⟩ := m.guiActivateWindow_eq t
  obtain ⟨v', r', hv⟩ := (m.guiActivateWindow t).terminalSetRunning_eq (some t)
  have hk : k.foreground x t = (m.guiActivateWindow t).mapped v' r' := hv
  rw [hk, ← hgui, hg]
  exact ⟨rfl, rfl, rfl⟩

/-- A program that is loaded comes to the top with its terminal. -/
theorem executeProgram_devices {a : ExecuteArgs} (h : k.executeProgram img a noise x = .ok k') :
    (k'.task x).terminal = (k.task x).terminal ∧ k'.mouse = k.mouse ∧
      k'.gui = activated k.gui (k.task x).terminal := by
  by_cases hl : k.Loadable img a noise
  · rcases k.paging.allocateAndSet_cases img (executeParseCommand a.command).1 noise.stack with
      ⟨n, hn, he⟩ | ⟨i, -, he⟩
    · rw [Loadable, he] at hl
      exact absurd hl (not_le.mpr hn)
    rw [executeProgram_eq he] at h
    have hpaged : ((k.paged x i).task x).terminal = (k.task x).terminal := by simp [paged]
    cases ht : (k.task x).terminal with
    | none =>
      rw [ht] at h hpaged
      cases h
      obtain ⟨v, r, hv⟩ := (k.paged x i).terminalSetRunning_eq none
      simp only [hv]
      exact ⟨hpaged, rfl, rfl⟩
    | some t =>
      rw [ht] at h hpaged
      cases h
      obtain ⟨htask, hmouse, hgui⟩ := (k.paged x i).foreground_devices x t
      simp only [htask, hmouse, hgui]
      exact ⟨hpaged, rfl, rfl⟩
  · exfalso
    cases ho : (k.task x).flags.terminalOwner with
    | false =>
      obtain ⟨f, hrun⟩ := executeProgram_none hl ho
      rw [hrun] at h
      cases h
    | true =>
      cases ht : (k.task x).terminal with
      | some t =>
        obtain ⟨f, hrun⟩ := executeProgram_none_owner hl ho ht
        rw [hrun] at h
        cases h
      | none =>
        obtain ⟨n, hn, he⟩ := allocateAndSet_none hl
        simp [executeProgram, he, hn, ho, ht] at h

theorem executeNewTerminal_mouse (h : k.executeNewTerminal x = .ok k') : k'.mouse = k.mouse := by
  rcases k.executeNewTerminal_cases x with ⟨-, f, hrun⟩ | ⟨t, -, ⟨-, idx, -, hrun⟩ | ⟨-, hrun⟩⟩
  · rw [hrun] at h
    cases h
  · rw [hrun] at h
    cases h
    rfl
  · rw [hrun] at h
    cases h
    rfl

/-- Phase 2 of a task that shares the terminal of its caller brings that terminal to the top. -/
theorem executeLoad_devices {a : ExecuteArgs} (h : k.executeLoad img a noise x = .ok k') :
    k'.mouse = k.mouse ∧
      (a.newTerminal = false → k'.gui = activated k.gui (k'.task x).terminal) := by
  unfold executeLoad at h
  split at h
  · cases h
    refine ⟨rfl, fun _ => ?_⟩
    have hterm :
        ((k.modifyTask x fun t => { t with terminal := none, pageId := -1 }).task x).terminal
        = none := by simp
    rw [hterm]
    rfl
  · obtain ⟨m, hm, h⟩ := bind_eq_ok.mp h
    obtain ⟨hterm, hmouse, hgui⟩ := executeProgram_devices h
    unfold executeTerminal at hm
    split at hm
    · next hnew =>
      refine ⟨hmouse.trans (executeNewTerminal_mouse hm), fun hn => ?_⟩
      rw [hnew] at hn
      cases hn
    · cases hm
      exact ⟨hmouse, fun _ => hgui.trans (congrArg (activated k.gui) hterm.symm)⟩

theorem modifyTask_terminal (k : Kernel) (x y : TaskId) {f : Task → Task}
    (hf : ∀ t, (f t).terminal = t.terminal) :
    ((k.modifyTask x f).task y).terminal = (k.task y).terminal := by
  by_cases hy : y = x
  · simp [hy, hf]
  · simp [hy]

theorem executeSchedule_devices (k : Kernel) (a : ExecuteArgs) (x y : TaskId) :
    (k.executeSchedule a x).mouse = k.mouse ∧ (k.executeSchedule a x).gui = k.gui ∧
      ((k.executeSchedule a x).task y).terminal = (k.task y).terminal := by
  have hmove : ∀ (m : Kernel) z n, (m.moveTaskAfterNode z n).task = m.task := fun _ _ _ => rfl
  unfold executeSchedule schedInsertToHead schedMoveRunningAfterNode
  by_cases hw : a.wait = 1
  · simp only [if_pos hw]
    refine ⟨rfl, rfl, ?_⟩
    rw [hmove, modifyTask_terminal, hmove, modifyTask_terminal] <;> exact fun _ => rfl
  · simp only [if_neg hw]
    refine ⟨rfl, rfl, ?_⟩
    rw [hmove, modifyTask_terminal]
    exact fun _ => rfl

theorem executeLaunch_devices (k : Kernel) (a : ExecuteArgs) (x y : TaskId) :
    (k.executeLaunch a x).mouse = k.mouse ∧ (k.executeLaunch a x).gui = k.gui ∧
      ((k.executeLaunch a x).task y).terminal = (k.task y).terminal := by
  unfold executeLaunch push
  by_cases hi : (k.task x).flags.initTask = true
  · simp only [if_pos hi]
    exact ⟨rfl, rfl, modifyTask_terminal _ _ _ fun _ => rfl⟩
  · simp only [if_neg hi]
    refine ⟨rfl, rfl, ?_⟩
    rw [modifyTask_terminal, modifyTask_terminal] <;> exact fun _ => rfl

theorem executeEnter_devices (k : Kernel) (a : ExecuteArgs) (x : TaskId) :
    (k.executeEnter a x).mouse = k.mouse ∧ (k.executeEnter a x).gui = k.gui ∧
      ((k.executeEnter a x).task x).terminal = (k.task x).terminal := by
  obtain ⟨hm, hg, ht⟩ := (k.executeInit x).executeSchedule_devices a x x
  obtain ⟨hm', hg', ht'⟩ := ((k.executeInit x).executeSchedule a x).executeLaunch_devices a x x
  refine ⟨hm'.trans hm, hg'.trans hg, (ht'.trans ht).trans ?_⟩
  exact k.modifyTask_terminal x x fun _ => rfl

/-- **A launch leaves the pointer alone**, and one on a terminal that is there brings its window
to the top. -/
theorem Launched.devices {a : ExecuteArgs} (hs : k.Sound)
    (h : k.systemExecute img noise a = .ok k') (hl : Launched k a x k') :
    k'.mouse = k.mouse ∧
      (a.newTerminal = false → k'.gui = activated k.gui (k.launchTerminal a)) := by
  obtain ⟨y, m, hload, rfl⟩ := systemExecute_ok hs.count h
  obtain rfl : y = x := hl.running
  obtain ⟨hmouse, hgui⟩ := executeLoad_devices hload
  obtain ⟨hmouse', hgui', hterm⟩ := m.executeEnter_devices a y
  refine ⟨hmouse'.trans hmouse, fun hn => ?_⟩
  rw [hgui', hgui hn, prepared_gui, ← hterm, hl.terminal]

/-! ## The end of a task -/

theorem tearDownTask_mouse (h : k.tearDownTask x = .ok k') : k'.mouse = k.mouse := by
  obtain ⟨τ, l, hlists, -⟩ := k.tearDownLists_eq x
  unfold tearDownTask at h
  split at h
  · cases h
    rfl
  obtain ⟨k₁, hterm, h⟩ := bind_eq_ok.mp h
  rw [hlists] at hterm
  cases h
  show k₁.mouse = k.mouse
  unfold tearDownTerminal at hterm
  split at hterm
  · split at hterm
    · cases hterm
    · obtain ⟨f, -, rfl⟩ := tearDownOwned_eq hterm
      rfl
  · split at hterm
    · cases hterm
      rfl
    · obtain ⟨t, y, -, -, rfl⟩ := tearDownShared_eq hterm
      rfl

theorem haltToParent_mouse {p : TaskId} {status : BitVec 32}
    (h : k.haltToParent x p status = .ok k') : k'.mouse = k.mouse := by
  unfold haltToParent at h
  obtain ⟨q, -, h⟩ := bind_eq_ok.mp h
  obtain ⟨k₁, hpage, h⟩ := bind_eq_ok.mp h
  have hk₁ : k₁.mouse = k.mouse := by
    unfold setTaskPage at hpage
    split at hpage
    · obtain ⟨q', -, hk⟩ := bind_eq_ok.mp hpage
      cases hk
      rfl
    · cases hpage
      rfl
  unfold switchTo at h
  simp only at h
  split at h
  · cases h
    exact (k₁.still_terminalSetRunning _).mouse.trans hk₁
  · cases h

theorem systemHalt_mouse {status : BitVec 32} (h : k.systemHalt noise status = .ok k') :
    k'.mouse = k.mouse := by
  unfold systemHalt at h
  simp only at h
  split at h
  · cases h
  obtain ⟨k₁, htear, h⟩ := bind_eq_ok.mp h
  have hk₁ := tearDownTask_mouse htear
  split at h
  · exact (haltToParent_mouse h).trans hk₁
  · obtain ⟨k₂, hsched, h⟩ := bind_eq_ok.mp h
    split at h
    · cases h
    · cases h
      exact (schedLaunch_mouse hsched).trans hk₁

/-- `task_halt_terminal` ends the foreground task of a terminal, if there is one. -/
theorem taskHaltTerminal_devices {t : TermId} (h : k.taskHaltTerminal noise t = .ok k') :
    Still k k' ∨ k.terminalFgTask t = some k.running ∨ ∃ x, k.terminalFgTask t = some x ∧
      x ≠ k.running ∧ TornDown x k k' ∧ k'.mouse = k.mouse := by
  unfold taskHaltTerminal at h
  cases hx : k.terminalFgTask t with
  | none =>
    simp only [hx] at h
    cases h
    obtain ⟨v, r, hv⟩ := k.terminalFocusPrintf_eq
    rw [hv]
    exact Or.inl (.of_eq rfl rfl rfl rfl rfl)
  | some x =>
    simp only [hx] at h
    by_cases hr : x = k.running
    · exact Or.inr (Or.inl (by rw [hr]))
    · rw [if_neg hr] at h
      cases hv : (k.task x).valid with
      | true =>
        exact Or.inr (Or.inr ⟨x, rfl, hr, tearDownTask_tornDown h hv, tearDownTask_mouse h⟩)
      | false =>
        unfold tearDownTask at h
        rw [if_pos (by simp [hv])] at h
        cases h
        exact Or.inl (.refl k)

/-! ## Presses -/

/-- A press touches the windows and the focus only. -/
theorem guiHandleMousePress_devices (k : Kernel) (x y : ℤ) :
    (k.guiHandleMousePress x y).task = k.task ∧ (k.guiHandleMousePress x y).mouse = k.mouse := by
  have hactivate : ∀ t, (k.guiActivateWindow t).task = k.task ∧
      (k.guiActivateWindow t).mouse = k.mouse := by
    intro t
    obtain ⟨g, f, v, r, h, -, -⟩ := k.guiActivateWindow_eq t
    rw [h]
    exact ⟨rfl, rfl⟩
  unfold guiHandleMousePress
  split
  · split <;> exact ⟨rfl, rfl⟩
  · next i hi =>
    clear hi
    simp only
    split
    · split
      · exact hactivate _
      · exact ⟨rfl, rfl⟩
    · split
      · exact hactivate _
      · exact ⟨rfl, rfl⟩

/-! ## Steps -/

/-- No signal stands for a closed window. -/
theorem fatal_ne_window {s : SignalStruct} : s.fatal ≠ some .window := by
  have hcause : ∀ i, fatalCause i ≠ some .window := by decide
  unfold SignalStruct.fatal
  split
  · exact Option.some_ne_none _ ∘ Eq.symm
  · split
    · split
      · exact Option.some_ne_none _ ∘ Eq.symm
      · exact hcause _
    · exact Option.some_ne_none _ ∘ Eq.symm

/-- The running task does not come back to the end of a packet. -/
def NoPacketOnTop (k : Kernel) : Prop :=
  ∀ f fs, k.runningTask.kstack = f :: fs → f.isMouseTail = false

theorem noPacketOnTop_nil (h : k.runningTask.kstack = []) : k.NoPacketOnTop := by
  intro f fs hstack
  rw [h] at hstack
  cases hstack

/-- **What a step does to the mouse and the windows.** -/
inductive Pointed (img : FsImage) (k₀ : Kernel) (l : Label) (k' : Kernel) : Prop where
  /-- Nothing. -/
  | still (hf : k₀.NoPacketOnTop) (h : Still (k₀.entered l) k')
  /-- A packet arrives. -/
  | packet (flags dx dy : UInt8) (hstack : k₀.runningTask.kstack = [])
      (he : l.event = .mouse flags dx dy)
      (h : k₀.enterInterrupt.mouseInterruptHandler img l.noise flags dx dy = .ok k')
  /-- The end of a packet. -/
  | tail (flags dx dy : UInt8) (fs : List Frame)
      (hstack : k₀.runningTask.kstack = .mouseTail flags dx dy :: fs) (he : l.event = .resume)
      (h : k' = k₀.pop.mouseTail flags dx dy)
  /-- A program is started by a program. -/
  | executed (a : ExecuteArgs) (x : TaskId) (ha : k₀.executes l = some a)
      (hn : a.newTerminal = false) (hstack : k₀.runningTask.kstack = [])
      (hl : (k₀.entered l).Launches img a l.noise) (h : Launched (k₀.entered l) a x k')
      (hmouse : k'.mouse = k₀.mouse)
      (hgui : k'.gui = activated k₀.gui ((k₀.entered l).launchTerminal a))
  /-- The running task halts. -/
  | halted (k₁ : Kernel) (cause : EndCause) (hc : k₀.halts l = some cause) (hw : cause ≠ .window)
      (hk₁ : Still (k₀.entered l) k₁) (hq : Quiet k₀ k₁)
      (h : Halted l.noise cause.status k₁ k') (hmouse : k'.mouse = k₀.mouse)

section Entries

variable {k₀ : Kernel}

/-- A task that halts is sound to halt. -/
theorem halted_pointed {k₁ : Kernel} (cause : EndCause) (hs : k₀.Sound)
    (hc : k₀.halts l = some cause) (hw : cause ≠ .window) (hk₁ : Still (k₀.entered l) k₁)
    (hq : Quiet k₀ k₁) (hm : k₁.mouse = k₀.mouse)
    (h : k₁.systemHalt l.noise cause.status = .ok k') : Pointed img k₀ l k' :=
  .halted k₁ cause hc hw hk₁ hq (systemHalt_halted h (hq.toCalm.sound hs).running)
    ((systemHalt_mouse h).trans hm)

theorem resumeFrame_pointed {f : Frame} {fs : List Frame} (hs : k₀.Sound)
    (hstack : k₀.runningTask.kstack = f :: fs) (he : l.event = .resume)
    (h : k₀.pop.resumeFrame l.noise f = .ok k') : Pointed img k₀ l k' := by
  have hent : k₀.entered l = k₀.pop := by simp [entered, hstack]
  have hstill : f.isMouseTail = false → ∀ {m}, Still k₀.pop m → Pointed img k₀ l m := by
    intro hf m hm
    refine .still (fun g gs hg => ?_) (hent ▸ hm)
    obtain ⟨rfl, -⟩ := List.cons.inj (hstack.symm.trans hg)
    exact hf
  cases f with
  | executeLaunch w =>
    cases h
    exact hstill rfl (.refl _)
  | terminalRead nbytes => exact hstill rfl (still_terminalReadEnd h)
  | rtcRead =>
    cases h
    exact hstill rfl (still_ret _ _)
  | keyboardTail =>
    cases h
    exact hstill rfl (still_terminalSetRunning _ _)
  | mouseTail flags dx dy =>
    cases h
    exact .tail flags dx dy fs hstack he rfl
  | syscallDone =>
    cases h
    exact hstill rfl (k₀.pop.still_modifyTask k₀.pop.running fun _ => ⟨rfl, .refl _⟩)
  | signalCheck =>
    have hflags : k₀.pop.runningTask.flags = k₀.runningTask.flags := by simp [pop, runningTask]
    have hsignals : k₀.pop.runningTask.signals = k₀.runningTask.signals := by
      simp [pop, runningTask]
    unfold resumeFrame at h
    simp only [hflags] at h
    cases hkt : k₀.runningTask.flags.kernelTask with
    | true =>
      rw [if_pos hkt] at h
      cases h
      exact hstill rfl (.refl _)
    | false =>
      rw [if_neg (by simp [hkt])] at h
      rcases signalCheck_cases h with ⟨-, f, rfl⟩ | ⟨cause, f, hfatal, hhalt⟩
      · exact hstill rfl (still_modifySignals _ _ f)
      · rw [hsignals] at hfatal
        have hc : k₀.halts l = some cause := by simp [halts, hstack, he, hkt, hfatal]
        refine halted_pointed cause hs hc ?_ (hent ▸ still_modifySignals _ _ f)
          (k₀.quiet_pop.trans (quiet_modifySignals _ _ f)) rfl hhalt
        rintro rfl
        exact fatal_ne_window hfatal

theorem userStep_pointed (hs : k₀.Sound) (hstack : k₀.runningTask.kstack = [])
    (hkt : k₀.runningTask.flags.kernelTask = false)
    (h : k₀.userStep img l.noise l.event = .ok k') : Pointed img k₀ l k' := by
  have hs' := k₀.quiet_enterSystemCall.toCalm.sound hs
  have hstill : ∀ {m}, k₀.entered l = k₀.enterSystemCall → Still k₀.enterSystemCall m →
      Pointed img k₀ l m := fun hent hm => .still (noPacketOnTop_nil hstack) (hent ▸ hm)
  cases he : l.event <;> rw [he] at h <;> unfold userStep at h <;> simp only [reduceCtorEq] at h
  case execute command =>
    have hent : k₀.entered l = k₀.enterSystemCall := by simp [entered, hstack, he]
    cases h
    have ha : (userArgs command).wait ≠ 0 ∨ (userArgs command).newTerminal = true :=
      Or.inl (by show (1 : ℤ) ≠ 0; decide)
    have hargs : (⟨command, 1, false, false⟩ : ExecuteArgs) = userArgs command := rfl
    rcases systemExecute_sound img l.noise hs' (not_slotLeaks ha) with
      ⟨-, k₂, hrun, hu⟩ | ⟨hl, x, k₂, hrun, hlaunch⟩
    · have hrun' : k₀.enterSystemCall.lowlevelSysExecute img l.noise command = k₂.ret (-1) := by
        unfold lowlevelSysExecute
        rw [hargs, hrun]
      rw [hrun']
      exact hstill hent (hu.still.trans (still_ret _ _))
    · have hrun' : k₀.enterSystemCall.lowlevelSysExecute img l.noise command = k₂ := by
        unfold lowlevelSysExecute
        rw [hargs, hrun]
      rw [hrun']
      obtain ⟨hmouse, hgui⟩ := hlaunch.devices hs' hrun
      refine .executed (userArgs command) x ?_ rfl hstack (hent ▸ hl) (hent ▸ hlaunch) hmouse ?_
      · simp [executes, hstack, he, hkt]
      · rw [hent]
        exact hgui rfl
  case halt status =>
    have hent : k₀.entered l = k₀.enterSystemCall := by simp [entered, hstack, he]
    exact halted_pointed (.call status) hs (by simp [halts, hstack, he, hkt]) (by simp)
      (hent ▸ .refl _) k₀.quiet_enterSystemCall rfl h
  case read fd bufNull nbytes =>
    exact hstill (by simp [entered, hstack, he]) (still_systemRead h)
  case write fd bufNull word nbytes =>
    exact hstill (by simp [entered, hstack, he]) (still_systemWrite h)
  case openFile filename =>
    exact hstill (by simp [entered, hstack, he]) (still_systemOpen h)
  case close fd =>
    cases h
    exact hstill (by simp [entered, hstack, he]) (still_systemClose _ _)
  case getargs nbytes =>
    cases h
    exact hstill (by simp [entered, hstack, he]) (still_systemGetargs _ _)
  case vidmap screenStart =>
    cases h
    exact hstill (by simp [entered, hstack, he]) (still_systemVidmap _ _)
  case setHandler signum address =>
    cases h
    exact hstill (by simp [entered, hstack, he]) (still_systemSetHandler _ _ _)
  case sigreturn =>
    cases h
    exact hstill (by simp [entered, hstack, he]) (still_systemSigreturn _ _)
  case exception num =>
    have hent : k₀.entered l = k₀.enterInterrupt := by simp [entered, hstack, he]
    cases h
    exact .still (noPacketOnTop_nil hstack) (hent ▸ still_signalSend _ _)

end Entries

theorem still_schedYield (h : k.schedYield noise = .ok k') : Still k k' := by
  unfold schedYield at h
  simp only at h
  split at h
  · exact k.still_schedMoveRunningToLast.trans (still_schedLaunch h)
  · exact ((k.still_schedRefillTime _).trans (still_schedMoveRunningToLast _)).trans
      (still_schedLaunch h)

/-- **Every step is one of these.** -/
theorem step_pointed {k₀ : Kernel} (hs : k₀.Sound) (h : k₀.step img l = .ok k') :
    Pointed img k₀ l k' := by
  unfold step at h
  split at h
  · next f rest hstack he => exact resumeFrame_pointed hs hstack he h
  · cases h
  · cases h
  · next hstack he =>
    have hent : k₀.entered l = k₀.enterInterrupt := by simp [entered, hstack, he]
    exact .still (noPacketOnTop_nil hstack) (hent ▸ still_pitInterruptHandler h)
  · next hstack he =>
    have hent : k₀.entered l = k₀.enterInterrupt := by simp [entered, hstack, he]
    exact .still (noPacketOnTop_nil hstack) (hent ▸ still_rtcInterruptHandler h)
  · next scanCode hstack he =>
    have hent : k₀.entered l = k₀.enterInterrupt := by simp [entered, hstack, he]
    exact .still (noPacketOnTop_nil hstack) (hent ▸ still_keyboardInterruptHandler h)
  · next flags dx dy hstack he => exact .packet flags dx dy hstack he h
  · next hstack he =>
    have hent : k₀.entered l = k₀ := by simp [entered, hstack, he]
    split at h
    · exact .still (noPacketOnTop_nil hstack) (hent.symm ▸ still_schedYield h)
    · cases h
  · next hstack _ _ _ _ _ _ =>
    cases hkt : k₀.runningTask.flags.kernelTask with
    | true =>
      rw [if_pos hkt] at h
      cases h
    | false =>
      rw [if_neg (by simp [hkt])] at h
      exact userStep_pointed hs hstack hkt h

end Kernel

end AuroraOS
