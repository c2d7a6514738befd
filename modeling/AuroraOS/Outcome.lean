/-
# What a step does

One lemma says what a step of the kernel can do, and every invariant is derived from
it.  Next to it stand the questions that the conditions of the main results ask about a
step before it is taken: which task a key wakes, whether the running task halts, which
window is closed, and what is executed.
-/
import AuroraOS.Frames

namespace AuroraOS

open Ring Machine

/-! ## Questions about a step -/

/-- Why a task ends. -/
inductive EndCause where
  /-- It calls `halt` with this value in the register. -/
  | call (status : BitVec 32)
  /-- The default handler of `SIGNAL_DIV_ZERO` or `SIGNAL_SEGFAULT`. -/
  | exception
  /-- The default handler of `SIGNAL_INTERRUPT`. -/
  | interrupt
  /-- Its window is closed while it runs. -/
  | window
  deriving DecidableEq

/-- The status that `system_halt` is called with. -/
def EndCause.status : EndCause → BitVec 32
  | .call status => status
  | .exception => 256
  | .interrupt => 15
  | .window => 255

/-- What the default handler of a signal halts the task for. -/
def fatalCause : Fin 5 → Option EndCause
  | 0 => some .exception
  | 1 => some .exception
  | 2 => some .interrupt
  | _ => none

/-- What `signal_check` halts the task for. -/
def SignalStruct.fatal (s : SignalStruct) : Option EndCause :=
  if s.pendingSignal &&& ~~~s.maskedSignal = 0 then none
  else if h : lowestSignal 5 (s.pendingSignal &&& ~~~s.maskedSignal) 0 < 5 then
    match s.currentHandlers ⟨lowestSignal 5 (s.pendingSignal &&& ~~~s.maskedSignal) 0, h⟩ with
    | .user _ => none
    | .default => fatalCause ⟨lowestSignal 5 (s.pendingSignal &&& ~~~s.maskedSignal) 0, h⟩
  else none

namespace Kernel

/-- The arguments of the `execute` system call. -/
def userArgs (command : List UInt8) : ExecuteArgs where
  command := command
  wait := 1
  newTerminal := false
  kernelTask := false

variable (k : Kernel)

/-- A packet that `mouse_interrupt_handler` does not drop. -/
def packetAccepted (flags : UInt8) : Bool :=
  flags != mouseAck && flags &&& 0x08 != 0 && flags &&& 0x40 == 0 && flags &&& 0x80 == 0

/-- The packet releases the left button. -/
def mouseReleases (flags : UInt8) : Bool :=
  packetAccepted flags && leftButton k.mouse.lastFlags && !leftButton flags

/-- The window on top, if the cursor is on its red button. -/
def redWindow : Option TermId :=
  (k.gui.windowStack.headD none).filter fun t =>
    (k.term (some t)).win.checkInside k.mouse.x k.mouse.y = .inRedButton

/-- The foreground task of the terminal whose window the packet closes. -/
def mouseCloses (flags : UInt8) : Option TaskId :=
  if k.mouseReleases flags then
    k.redWindow.bind fun t => k.terminalFgTask (k.term (some t)).win.terminalId
  else none

/-- The packet presses the terminal button. -/
def mouseOpens (flags : UInt8) : Bool :=
  k.mouseReleases flags && k.redWindow.isNone && onTerminalButton k.mouse.x k.mouse.y

/-- Why the running task halts in this step, if it does. -/
def halts (l : Label) : Option EndCause :=
  match k.runningTask.kstack, l.event with
  | .signalCheck :: _, .resume =>
    if k.runningTask.flags.kernelTask then none else k.runningTask.signals.fatal
  | [], .halt status => if k.runningTask.flags.kernelTask then none else some (.call status)
  | [], .mouse flags _ _ => if k.mouseCloses flags = some k.running then some .window else none
  | _, _ => none

/-- The task that is not running and whose window is closed in this step. -/
def closes (l : Label) : Option TaskId :=
  match k.runningTask.kstack, l.event with
  | [], .mouse flags _ _ => (k.mouseCloses flags).filter (· ≠ k.running)
  | _, _ => none

/-- What this step executes. -/
def executes (l : Label) : Option ExecuteArgs :=
  match k.runningTask.kstack, l.event with
  | [], .execute command => if k.runningTask.flags.kernelTask then none else some (userArgs command)
  | [], .mouse flags _ _ => if k.mouseOpens flags then some shellArgs else none
  | _, _ => none

/-- The task that has the focus when the key has done its work. -/
def keyTarget (f : TaskId) (effect : KeyEffect) : TaskId :=
  match effect.focus with
  | none => f
  | some i => (k.terminalFgTask i).getD f

/-- The task that this step wakes by a key. -/
def keyWakes (l : Label) : Option TaskId :=
  match k.runningTask.kstack, l.event, k.focusTask with
  | [], .keyboard scanCode, some f =>
    if scancodePressed ≤ scanCode.toNat then none
    else
      match (k.term (k.task f).terminal).pressKey (k.keyboard.setKey scanCode.toNat true)
          scanCode.toNat with
      | .ok (_, _, effect) => if effect.wake then some (k.keyTarget f effect) else none
      | .error _ => none
  | _, _, _ => none

/-- What the key of this step does. -/
def keyEffect (l : Label) : Option KeyEffect :=
  match k.runningTask.kstack, l.event, k.focusTask with
  | [], .keyboard scanCode, some f =>
    if scancodePressed ≤ scanCode.toNat then none
    else
      match (k.term (k.task f).terminal).pressKey (k.keyboard.setKey scanCode.toNat true)
          scanCode.toNat with
      | .ok (_, _, effect) => some effect
      | .error _ => none
  | _, _, _ => none

/-- The length that a read of the terminal asks for in this step. -/
def lineAsked (img : FsImage) (l : Label) : Option ℤ :=
  match k.runningTask.kstack, l.event with
  | [], .read fd bufNull nbytes =>
    match k.runningTask.fileArray.systemRead img fd bufNull nbytes with
    | .terminal => some nbytes
    | _ => none
  | _, _ => none

/-- The kernel behind the entry code of a step. -/
def entered (l : Label) : Kernel :=
  match k.runningTask.kstack, l.event with
  | _ :: _, _ => k.pop
  | [], .pit => k.enterInterrupt
  | [], .rtc => k.enterInterrupt
  | [], .keyboard _ => k.enterInterrupt
  | [], .mouse _ _ _ => k.enterInterrupt
  | [], .exception _ => k.enterInterrupt
  | [], .yield => k
  | [], .resume => k
  | [], _ => k.enterSystemCall

theorem quiet_entered (l : Label) : Quiet k (k.entered l) := by
  unfold entered
  split
  · exact k.quiet_pop
  · exact k.quiet_enterInterrupt
  · exact k.quiet_enterInterrupt
  · exact k.quiet_enterInterrupt
  · exact k.quiet_enterInterrupt
  · exact k.quiet_enterInterrupt
  · exact .refl k
  · exact .refl k
  · exact k.quiet_enterSystemCall

end Kernel

namespace Kernel

variable {k k' : Kernel} {img : FsImage} {noise : Noise} {l : Label}

/-! ## Sound kernels -/

/-- **A kernel between two steps**: it counts its tasks, a task is running, and its windows
are those of its terminals. -/
structure Sound (k : Kernel) : Prop where
  count : k.taskCount = k.live.card
  running : (k.task k.running).valid = true
  windowed : k.Windowed
  closed : ∀ t, (k.term (some t)).valid = false → k.vidmem.terminalOpened t = false

theorem Sound.wellFormed (h : k.Sound) : k.WellFormed where
  count := h.count
  windows := by
    obtain ⟨wins, hw, -⟩ := h.windowed
    exact ⟨wins, hw⟩
  closed := h.closed

theorem Calm.live (h : Calm k k') : k'.live = k.live := by
  ext x
  rw [mem_live, mem_live, (h.core x).valid]

theorem Calm.sound (h : Calm k k') (hs : k.Sound) : k'.Sound where
  count := by rw [h.taskCount, h.live, hs.count]
  running := by rw [h.running, (h.core _).valid, hs.running]
  windowed := hs.windowed.congr h.windowStack fun t =>
    ⟨(h.term (some t)).valid, (h.term (some t)).terminalId⟩
  closed := by
    intro t ht
    rw [h.opened]
    exact hs.closed t ((h.term (some t)).valid ▸ ht)

theorem Sound.taskCount_pos (h : k.Sound) : k.taskCount ≠ 0 := by
  rw [h.count]
  exact Finset.card_ne_zero_of_mem (mem_live.mpr h.running)

/-! ## The outcomes -/

/-- The key has reached the terminal of the focus task. -/
structure Typed (k : Kernel) (f g : TaskId) (term : Terminal) (k' : Kernel) : Prop where
  calm : Calm { k with focusTask := some g } k'
  typed : (term.SameLine (k'.term (k.task f).terminal))
  line : ∀ u, u ≠ (k.task f).terminal → (k.term u).SameLine (k'.term u)

/-- The windows `g` and the focus `f` behind a press: the order of the windows and the focus are
as before, or a window has come to the top, with the foreground task of its terminal. -/
def FocusFollows (k : Kernel) (g : Gui) (f : Option TaskId) : Prop :=
  f = k.focusTask ∧ g.windowStack = k.gui.windowStack ∨
    ∃ t, k.gui.findWindowIdx (some t) ≠ none ∧
      f = (k.terminalFgTask (k.term (some t)).win.terminalId).or k.focusTask ∧
      g.windowStack.headD none = some t

/-- **What a step can do** to the kernel `k` behind its entry code.  `k₀` is the kernel
before the step. -/
inductive Outcome (img : FsImage) (k₀ : Kernel) (l : Label) (k k' : Kernel) : Prop where
  /-- It concerns the running task only. -/
  | quiet (h : Quiet k k')
  /-- `system_vidmap`. -/
  | vidmap (t : TermId) (ht : k.runningTask.terminal = some t)
      (h : k' = ret { k.modifyTask k.running fun t => { t with vidmapEnabled := true } with
        vidmem := k.vidmem.taskSetUserVidmap (some t) } 0)
  /-- A read from the terminal returns. -/
  | lineRead (h : LineRead k.runningTask.terminal k k')
  /-- A read from the terminal waits for a line. -/
  | readWaits (nbytes : ℤ) (term : Terminal)
      (hb : (k.term k.runningTask.terminal).readBegin nbytes = (term, none))
      (he : ∃ n, k₀.lineAsked img l = some n ∧ nbytes = Terminal.limitBytes n)
      (hu : k.runningTask.flags.kernelTask = false)
      (h : Scheduled l.noise ((k.modifyTerm k.runningTask.terminal fun _ => term).asleep
        .terminalWaitList (readerTask nbytes)) k')
  /-- A read from the RTC waits. -/
  | rtcWaits (counter : ℤ) (hu : k.runningTask.flags.kernelTask = false)
      (h : Scheduled l.noise (k.asleep .rtcWaitList (rtcTask counter)) k')
  /-- The running task gives up the processor. -/
  | yields (k₁ : Kernel) (hq : Quiet k k₁) (h : Scheduled l.noise k₁.schedMoveRunningToLast k')
  /-- The interrupt of the RTC. -/
  | rtc (k₁ : Kernel) (wakeCount : ℕ)
      (hl : rtcLoop taskMaxCount k 0 (k.links.next (.head .rtcWaitList))
        = .ok (k₁, wakeCount)) (he : l.event = .rtc)
      (h : wakeCount = 0 ∧ k' = k₁ ∨ 0 < wakeCount ∧ Scheduled l.noise k₁ k')
  /-- A key. -/
  | key (k₁ : Kernel) (f : TaskId) (kb kb' : Keyboard) (code : ℕ) (term : Terminal)
      (effect : KeyEffect)
      (hf : k.focusTask = some f)
      (hp : (k.term (k.task f).terminal).pressKey kb code = .ok (kb', term, effect))
      (he : k₀.keyEffect l = some effect)
      (h : Typed k f (k.keyTarget f effect) term k₁)
      (hw : effect.wake = false ∧ k' = k₁ ∨ effect.wake = true ∧
        k₀.keyWakes l = some (k.keyTarget f effect) ∧
          Scheduled l.noise (k₁.keyWoken (k.keyTarget f effect)) k')
  /-- A window comes to the top. -/
  | raised (g : Gui) (f : Option TaskId)
      (hg : ∀ wins, k.gui.Holds wins → ∃ wins', g.Holds wins' ∧ ∀ u, u ∈ wins' ↔ u ∈ wins)
      (hf : k.FocusFollows g f)
      (h : Quiet { k with gui := g, focusTask := f } k')
  /-- A task is not started. -/
  | refused (k₁ k₂ : Kernel) (hq : Quiet k k₁) (h : Untouched k₁ k₂) (hq' : Quiet k₂ k')
  /-- A task is started. -/
  | launched (k₁ : Kernel) (a : ExecuteArgs) (x : TaskId) (ha : k₀.executes l = some a)
      (hq : Quiet k k₁) (hw : a.wait = 1 → k₁ = k)
      (hl : k₁.Launches img a l.noise) (h : Launched k₁ a x k')
  /-- The running task halts. -/
  | halted (k₁ : Kernel) (cause : EndCause) (hc : k₀.halts l = some cause) (hq : Quiet k k₁)
      (h : Halted l.noise cause.status k₁ k')
  /-- The window of another task is closed. -/
  | closed (k₁ : Kernel) (x : TaskId) (hc : k₀.closes l = some x) (hq : Quiet k k₁)
      (h : TornDown x k₁ k')

/-! ## System calls and signals -/

/-- The files and the RTC settings of the running task, and a return value. -/
theorem quiet_own (k : Kernel) (fa : Task → FileArray) (rtc : Task → RtcControl) (value : ℤ) :
    Quiet k ((k.modifyTask k.running fun t => { t with
      fileArray := fa t, rtc := rtc t }).ret value) := by
  have hq : Quiet k (k.modifyTask k.running fun t => { t with fileArray := fa t, rtc := rtc t }) :=
    k.quiet_modifyTask k.running fun _ => ⟨⟨rfl, rfl, rfl, rfl, rfl, rfl⟩, rfl⟩
  exact hq.trans (quiet_ret _ _)

theorem systemWrite_quiet {fd : ℤ} {bufNull : Bool} {word : BitVec 32} {nbytes : ℤ}
    (h : k.systemWrite fd bufNull word nbytes = .ok k') : Quiet k k' := by
  unfold systemWrite at h
  obtain ⟨⟨value, rtc⟩, -, h⟩ := bind_eq_ok.mp h
  cases h
  exact k.quiet_own (·.fileArray) (fun _ => rtc) value

theorem systemOpen_quiet {filename : List UInt8} (h : k.systemOpen img filename = .ok k') :
    Quiet k k' := by
  unfold systemOpen at h
  obtain ⟨⟨fd, fa, rtc⟩, -, h⟩ := bind_eq_ok.mp h
  cases h
  exact k.quiet_own (fun _ => fa) (fun _ => rtc) fd

theorem quiet_systemClose (k : Kernel) (fd : ℤ) : Quiet k (k.systemClose fd) :=
  k.quiet_own (fun _ => (k.runningTask.fileArray.systemClose fd).2) (·.rtc) _

theorem quiet_systemGetargs (k : Kernel) (nbytes : ℤ) : Quiet k (k.systemGetargs nbytes) := by
  unfold systemGetargs
  split
  · exact k.quiet_ret _
  · split <;> exact k.quiet_ret _

theorem quiet_systemSetHandler (k : Kernel) (signum : ℤ) (address : ℕ) :
    Quiet k (k.systemSetHandler signum address) :=
  (k.quiet_modifySignals _ _).trans (quiet_ret _ _)

theorem quiet_systemSigreturn (k : Kernel) (noise : Noise) : Quiet k (k.systemSigreturn noise) :=
  (k.quiet_modifySignals _ _).trans (quiet_eax _ _)

/-- `signal_check` halts the running task exactly for the fatal signals; otherwise it changes
its signals. -/
theorem signalCheck_cases (h : k.signalCheck noise = .ok k') :
    (k.runningTask.signals.fatal = none ∧ ∃ f, k' = k.modifySignals k.running f) ∨
      ∃ cause f, k.runningTask.signals.fatal = some cause ∧
        (k.modifySignals k.running f).systemHalt noise cause.status = .ok k' := by
  unfold signalCheck at h
  simp only at h
  unfold SignalStruct.fatal
  by_cases h0 : k.runningTask.signals.pendingSignal &&& ~~~k.runningTask.signals.maskedSignal = 0
  · rw [if_pos h0] at h ⊢
    cases h
    refine Or.inl ⟨rfl, id, ?_⟩
    show k = { k with task := Function.update k.task k.running (k.task k.running) }
    rw [Function.update_eq_self]
  rw [if_neg h0] at h ⊢
  split at h
  · next hlt =>
    rw [dif_pos hlt]
    set f : SignalStruct → SignalStruct := fun s => { s with
      available := s.maskedSignal
      maskedSignal := BitVec.allOnes 32
      pendingSignal := 0 } with hf
    -- the default handlers of the last two signals change the signals a second time
    have hmask : (k.modifySignals k.running f).modifySignals k.running (·.restoreMask) =
        k.modifySignals k.running fun s => (f s).restoreMask := by
      simp only [modifySignals, modifyTask_modifyTask]
    revert h
    generalize (⟨lowestSignal 5 (k.runningTask.signals.pendingSignal &&&
      ~~~k.runningTask.signals.maskedSignal) 0, hlt⟩ : Fin 5) = i
    intro h
    cases hi : k.runningTask.signals.currentHandlers i with
    | user address =>
      simp only [hi] at h
      cases h
      exact Or.inl ⟨rfl, f, rfl⟩
    | default =>
      simp only [hi] at h
      match i with
      | 0 => exact Or.inr ⟨.exception, f, rfl, h⟩
      | 1 => exact Or.inr ⟨.exception, f, rfl, h⟩
      | 2 => exact Or.inr ⟨.interrupt, f, rfl, h⟩
      | 3 =>
        cases h
        exact Or.inl ⟨rfl, _, hmask⟩
      | 4 =>
        cases h
        exact Or.inl ⟨rfl, _, hmask⟩
  · cases h

/-! ## The end and the start of a task -/

/-- A task that halts in the kernel behind a quiet part of the step. -/
theorem halted_outcome {k₀ k₁ : Kernel} (cause : EndCause) (hs : k.Sound)
    (hc : k₀.halts l = some cause) (hq : Quiet k k₁)
    (h : k₁.systemHalt l.noise cause.status = .ok k') : Outcome img k₀ l k k' :=
  .halted k₁ cause hc hq (systemHalt_halted h (hq.toCalm.sound hs).running)

theorem not_slotLeaks {a : ExecuteArgs} (ha : a.wait ≠ 0 ∨ a.newTerminal = true) :
    ¬ k.SlotLeaks a := by
  rintro ⟨-, -, h1, h2, -⟩
  rcases ha with h | h
  · exact h h1
  · rw [h2] at h
    cases h

/-- In a sound kernel `system_execute` starts the task or leaves everything as it was. -/
theorem systemExecute_sound (img : FsImage) (noise : Noise)
    (hs : k.Sound) {a : ExecuteArgs} (ha : ¬ k.SlotLeaks a) :
    (¬ k.Launches img a noise ∧ ∃ k', k.systemExecute img noise a = .error k' ∧ Untouched k k') ∨
    (k.Launches img a noise ∧
      ∃ x k', k.systemExecute img noise a = .ok k' ∧ Launched k a x k') := by
  rcases systemExecute_cases hs.wellFormed img noise a with ⟨h, -⟩ | ⟨h, -⟩ |
    ⟨-, -, hl, k', hrun, hu⟩ | ⟨-, -, hl, x, k', hload, hrun⟩
  · exact absurd h ha
  · obtain ⟨-, -, -, -, -, t, ht, hfit⟩ := h
    exact absurd (hs.windowed.fits (freeTerminal_valid ht)) hfit
  · exact Or.inl ⟨hl, k', hrun, hu⟩
  · refine Or.inr ⟨hl, x, _, hrun, hload.launched ?_ hs.taskCount_pos⟩
    rintro rfl
    have := hs.running
    rw [hload.fresh] at this
    cases this

/-! ## The keyboard -/

theorem typeKey_shape (t : Terminal) (kb : Keyboard) (code : ℕ) :
    t.SameShape (t.typeKey kb code) := by
  unfold Terminal.typeKey
  split
  · split <;> exact ⟨rfl, rfl⟩
  · simp only
    split <;> exact ⟨rfl, rfl⟩

theorem pressKey_shape {t t' : Terminal} {kb kb' : Keyboard} {code : ℕ} {effect : KeyEffect}
    (h : t.pressKey kb code = .ok (kb', t', effect)) : t.SameShape t' := by
  unfold Terminal.pressKey at h
  split at h
  · split at h <;> cases h
    exact ⟨rfl, rfl⟩
  split at h
  · cases h
    exact ⟨rfl, rfl⟩
  split at h
  · cases h
    exact ⟨rfl, rfl⟩
  split at h
  · cases h
    exact ⟨rfl, rfl⟩
  split at h
  · split at h <;> cases h
    exact ⟨rfl, rfl⟩
  · cases h
    exact typeKey_shape _ _ _

theorem Calm.withFocus (h : Calm k k') (f : Option TaskId) :
    Calm { k with focusTask := f } { k' with focusTask := f } :=
  { h with focusTask := rfl }

/-- The focus goes to the foreground task of a terminal, if it has one. -/
theorem taskChangeFocus_calm {f : TaskId} (hf : k.focusTask = some f) (i : TermId) :
    Quiet { k with focusTask := some ((k.terminalFgTask i).getD f) } (k.taskChangeFocus i) := by
  obtain ⟨v, r, h⟩ := k.taskChangeFocus_eq i
  have hor : (k.terminalFgTask i).or k.focusTask = some ((k.terminalFgTask i).getD f) := by
    rw [hf]
    cases k.terminalFgTask i <;> rfl
  rw [h, hor]
  exact quiet_mapped { k with focusTask := some ((k.terminalFgTask i).getD f) } v r

/-- A key is released, or it is pressed and reaches the focus task. -/
theorem handleScanCode_cases {scanCode : UInt8} (h : k.handleScanCode noise scanCode = .ok k') :
    Quiet k k' ∨ ∃ f kb term effect k₁, ¬ scancodePressed ≤ scanCode.toNat ∧
      k.focusTask = some f ∧
      (k.term (k.task f).terminal).pressKey (k.keyboard.setKey scanCode.toNat true) scanCode.toNat
        = .ok (kb, term, effect) ∧
      Typed k f (k.keyTarget f effect) term k₁ ∧
      (effect.wake = false ∧ k' = k₁ ∨ effect.wake = true ∧ k₁.wakeFocus noise = .ok k') := by
  unfold handleScanCode at h
  simp only at h
  by_cases hrel : scancodePressed ≤ scanCode.toNat
  · rw [if_pos hrel] at h
    cases h
    exact Or.inl (k.quiet_devices k.gui _ k.mouse rfl)
  rw [if_neg hrel] at h
  rcases Option.eq_none_or_eq_some k.focusTask with hf | ⟨f, hf⟩
  · simp only [hf] at h
    cases h
    rw [← hf]
    exact Or.inl (k.quiet_devices k.gui _ k.mouse rfl)
  · simp only [hf] at h
    rw [← hf] at h
    obtain ⟨⟨kb, term, effect⟩, hpress, h⟩ := bind_eq_ok.mp h
    refine Or.inr ⟨f, kb, term, effect, ?_⟩
    simp only at h
    -- the key is written to the terminal
    have hshape := pressKey_shape hpress
    let k₁ : Kernel := { k.modifyTerm (k.task f).terminal fun _ => term with keyboard := kb }
    have hcalm₁ : Calm k k₁ := (k.calm_modifyTerm _ hshape).trans
      (quiet_devices (k.modifyTerm (k.task f).terminal fun _ => term) k.gui kb k.mouse rfl).toCalm
    have hline₁ : ∀ u, u ≠ (k.task f).terminal → (k.term u).SameLine (k₁.term u) := by
      intro u hu
      show (k.term u).SameLine (Function.update k.term (k.task f).terminal term u)
      rw [Function.update_of_ne hu]
      exact ⟨rfl, rfl, rfl⟩
    have htyped₁ : term.SameLine (k₁.term (k.task f).terminal) := by
      show term.SameLine (Function.update k.term (k.task f).terminal term (k.task f).terminal)
      rw [Function.update_self]
      exact ⟨rfl, rfl, rfl⟩
    -- the signal is sent
    let k₂ : Kernel := if effect.interrupt then k₁.signalSend signalInterrupt else k₁
    have hq₂ : Quiet k₁ k₂ := by
      by_cases hi : effect.interrupt = true
      · simp only [k₂, if_pos hi]
        exact quiet_signalSend _ _
      · simp only [k₂, if_neg hi]
        exact .refl _
    have hcalm₂ : Calm k k₂ := hcalm₁.trans hq₂.toCalm
    have hfocus₂ : k₂.focusTask = some f := hcalm₂.focusTask.trans hf
    -- the focus changes
    let k₃ : Kernel := match effect.focus with
      | none => k₂
      | some i => k₂.taskChangeFocus i
    have hq₃ : Quiet { k₂ with focusTask := some (k.keyTarget f effect) } k₃ := by
      cases hi : effect.focus with
      | none =>
        simp only [k₃, hi, keyTarget, ← hfocus₂]
        exact .refl _
      | some i =>
        have hq := taskChangeFocus_calm hfocus₂ i
        simp only [k₃, hi, keyTarget, ← hcalm₂.terminalFgTask]
        exact hq
    have htyped : Typed k f (k.keyTarget f effect) term k₃ := by
      refine ⟨(hcalm₂.withFocus _).trans hq₃.toCalm, ?_, fun u hu => ?_⟩
      · have h₂ := hq₂.line (k.task f).terminal
        have h₃ := hq₃.line (k.task f).terminal
        exact ⟨(h₃.keyBuf.trans h₂.keyBuf).trans htyped₁.keyBuf,
          (h₃.keyBufCnt.trans h₂.keyBufCnt).trans htyped₁.keyBufCnt,
          (h₃.userAskLen.trans h₂.userAskLen).trans htyped₁.userAskLen⟩
      · have h₁ := hline₁ u hu
        have h₂ := hq₂.line u
        have h₃ := hq₃.line u
        exact ⟨(h₃.keyBuf.trans h₂.keyBuf).trans h₁.keyBuf,
          (h₃.keyBufCnt.trans h₂.keyBufCnt).trans h₁.keyBufCnt,
          (h₃.userAskLen.trans h₂.userAskLen).trans h₁.userAskLen⟩
    refine ⟨k₃, hrel, hf, hpress, htyped, ?_⟩
    cases hw : effect.wake with
    | false =>
      rw [if_neg (by simp [hw])] at h
      cases h
      exact Or.inl ⟨rfl, rfl⟩
    | true =>
      rw [if_pos hw] at h
      exact Or.inr ⟨rfl, h⟩

/-! ## The mouse -/

/-- A window may have come to the top. -/
def Raised (k k' : Kernel) : Prop :=
  ∃ g f, (∀ wins, k.gui.Holds wins → ∃ wins', g.Holds wins' ∧ ∀ u, u ∈ wins' ↔ u ∈ wins) ∧
    k.FocusFollows g f ∧ Quiet { k with gui := g, focusTask := f } k'

theorem Quiet.raised (h : Quiet k k') : Raised k k' :=
  ⟨k.gui, k.focusTask, fun wins hw => ⟨wins, hw, fun _ => Iff.rfl⟩, Or.inl ⟨rfl, rfl⟩, h⟩

theorem guiActivateWindow_raised (k : Kernel) (t : TermId) : Raised k (k.guiActivateWindow t) := by
  obtain ⟨g, f, v, r, h, hf, hg⟩ := k.guiActivateWindow_eq t
  refine ⟨g, f, hg, ?_, ?_⟩
  · rcases hf with ⟨hf, hgui⟩ | hf
    · exact Or.inl ⟨hf, congrArg Gui.windowStack hgui⟩
    · exact Or.inr ⟨t, hf⟩
  · rw [h]
    exact quiet_mapped { k with gui := g, focusTask := f } v r

theorem guiHandleMousePress_raised (k : Kernel) (x y : ℤ) :
    Raised k (k.guiHandleMousePress x y) := by
  unfold guiHandleMousePress
  split
  · split
    · exact (k.quiet_devices { k.gui with termButtonPressed := true } k.keyboard k.mouse rfl).raised
    · exact (Quiet.refl k).raised
  · next i hi =>
    clear hi
    have htitle : ∀ m : Kernel, Raised k m →
        Raised k { m with gui := { m.gui with mousePressedOnTitle := true } } := by
      rintro m ⟨g, f, hg, hf, hq⟩
      exact ⟨g, f, hg, hf, hq.trans (m.quiet_devices { m.gui with mousePressedOnTitle := true }
        m.keyboard m.mouse rfl)⟩
    have hraise : ∀ m : Kernel, m = k ∨ (∃ t, m = k.guiActivateWindow t) → Raised k m := by
      rintro m (rfl | ⟨t, rfl⟩)
      · exact (Quiet.refl m).raised
      · exact k.guiActivateWindow_raised t
    simp only
    split
    · refine htitle _ (hraise _ ?_)
      split
      · exact Or.inr ⟨_, rfl⟩
      · exact Or.inl rfl
    · refine hraise _ ?_
      split
      · exact Or.inr ⟨_, rfl⟩
      · exact Or.inl rfl

/-- `task_halt_terminal` ends the foreground task of a terminal, if there is one. -/
theorem taskHaltTerminal_cases {t : TermId} (h : k.taskHaltTerminal noise t = .ok k') :
    Quiet k k' ∨ (k.terminalFgTask t = some k.running ∧ k.systemHalt noise 255 = .ok k') ∨
      ∃ x, k.terminalFgTask t = some x ∧ x ≠ k.running ∧ TornDown x k k' := by
  unfold taskHaltTerminal at h
  cases hx : k.terminalFgTask t with
  | none =>
    simp only [hx] at h
    cases h
    exact Or.inl k.quiet_terminalFocusPrintf
  | some x =>
    simp only [hx] at h
    by_cases hr : x = k.running
    · rw [if_pos hr] at h
      exact Or.inr (Or.inl ⟨by rw [hr], h⟩)
    · rw [if_neg hr] at h
      cases hv : (k.task x).valid with
      | true => exact Or.inr (Or.inr ⟨x, rfl, hr, tearDownTask_tornDown h hv⟩)
      | false =>
        unfold tearDownTask at h
        rw [if_pos (by simp [hv])] at h
        cases h
        exact Or.inl (.refl k)

/-- The terminal button is released, or the background. -/
theorem releaseElsewhere_cases {b : Bool} (hs : k.Sound)
    (h : (if b = true then
        match k.systemExecute img noise shellArgs with
        | .ok k => .ok k
        | .error k => .ok k
      else .ok k : Except Fault Kernel) = .ok k') :
    k' = k ∨ b = true ∧ (Untouched k k' ∨ k.Launches img shellArgs noise ∧
      k.systemExecute img noise shellArgs = .ok k' ∧ ∃ x, Launched k shellArgs x k') := by
  cases b with
  | false =>
    rw [if_neg (by simp)] at h
    cases h
    exact Or.inl rfl
  | true =>
    rw [if_pos rfl] at h
    rcases systemExecute_sound img noise hs
      (not_slotLeaks (a := shellArgs) (Or.inr rfl)) with
      ⟨-, k₁, hrun, hu⟩ | ⟨hl, x, k₁, hrun, hlaunch⟩
    · rw [hrun] at h
      cases h
      exact Or.inr ⟨rfl, Or.inl hu⟩
    · rw [hrun] at h
      cases h
      exact Or.inr ⟨rfl, Or.inr ⟨hl, hrun, x, hlaunch⟩⟩

/-- Releasing the button ends a drag, and closes a window, opens a terminal or does nothing
else. -/
theorem guiHandleMouseRelease_cases (hs : k.Sound)
    (h : k.guiHandleMouseRelease img noise k.mouse.x k.mouse.y = .ok k') :
    ∃ g, g.windowStack = k.gui.windowStack ∧ g.mousePressedOnTitle = false ∧
      ((∃ t, k.redWindow = some t ∧ taskHaltTerminal { k with gui := g } noise
          (k.term (some t)).win.terminalId = .ok k') ∨
        (k.redWindow = none ∧ (k' = { k with gui := g } ∨
          onTerminalButton k.mouse.x k.mouse.y = true ∧
            (Untouched { k with gui := g } k' ∨ Launches { k with gui := g } img shellArgs noise ∧
              systemExecute { k with gui := g } img noise shellArgs = .ok k' ∧
                ∃ x, Launched { k with gui := g } shellArgs x k')))) := by
  unfold guiHandleMouseRelease at h
  simp only at h
  have hq : Quiet k { k with gui := { k.gui with
      mousePressedOnTitle := false, termButtonPressed := false } } :=
    k.quiet_devices { k.gui with mousePressedOnTitle := false, termButtonPressed := false }
      k.keyboard k.mouse rfl
  split at h
  · next t hin htop =>
    rw [htop] at hin
    refine ⟨{ k.gui with mousePressedOnTitle := false }, rfl, rfl, Or.inl ⟨t, ?_, h⟩⟩
    have hin' : (k.term (some t)).win.checkInside k.mouse.x k.mouse.y = .inRedButton := hin
    simp only [redWindow, htop, Option.filter, hin', decide_true, if_true]
  · next hnot =>
    refine ⟨{ k.gui with mousePressedOnTitle := false, termButtonPressed := false }, rfl, rfl,
      Or.inr ⟨?_, releaseElsewhere_cases (hq.toCalm.sound hs) h⟩⟩
    cases htop : k.gui.windowStack.headD none with
    | none => simp only [redWindow, htop, Option.filter]
    | some t =>
      have hin : (k.term (some t)).win.checkInside k.mouse.x k.mouse.y ≠ .inRedButton := by
        intro hin
        exact hnot t (by rw [htop]; exact hin) htop
      rw [redWindow, htop]
      simp [Option.filter, hin]

/-- A packet is dropped, or it is an edge of the left button or not. -/
theorem mouseInterruptHandler_cases {flags dx dy : UInt8}
    (h : k.mouseInterruptHandler img noise flags dx dy = .ok k') :
    packetAccepted flags = false ∧ k' = k ∨ packetAccepted flags = true ∧
      ((leftButton k.mouse.lastFlags = false ∧ leftButton flags = true ∧
          k' = (k.push (.mouseTail flags dx dy)).guiHandleMousePress k.mouse.x k.mouse.y) ∨
        (leftButton k.mouse.lastFlags = true ∧ leftButton flags = false ∧
          (k.push (.mouseTail flags dx dy)).guiHandleMouseRelease img noise k.mouse.x k.mouse.y
            = .ok k') ∨
        (leftButton k.mouse.lastFlags = leftButton flags ∧
          k' = k.push (.mouseTail flags dx dy))) := by
  unfold mouseInterruptHandler at h
  split at h
  · next hack =>
    cases h
    exact Or.inl ⟨by simp [packetAccepted, hack], rfl⟩
  next hack =>
  split at h
  · next hsync =>
    cases h
    exact Or.inl ⟨by simp [packetAccepted, hsync], rfl⟩
  next hsync =>
  split at h
  · next hover =>
    cases h
    refine Or.inl ⟨?_, rfl⟩
    rcases hover with hover | hover <;> simp [packetAccepted, hover]
  next hover =>
  simp only [not_or, not_not] at hover
  refine Or.inr ⟨by simp [packetAccepted, hack, hsync, hover.1, hover.2], ?_⟩
  have hlast : (k.push (.mouseTail flags dx dy)).mouse = k.mouse := rfl
  simp only [hlast] at h
  cases hl : leftButton k.mouse.lastFlags <;> cases hn : leftButton flags <;>
    simp only [hl, hn, Bool.not_false, Bool.not_true, Bool.and_true, Bool.and_false, if_true,
      Bool.false_eq_true, if_false] at h
  · cases h
    exact Or.inr (Or.inr ⟨rfl, rfl⟩)
  · cases h
    exact Or.inl ⟨rfl, rfl, rfl⟩
  · exact Or.inr (Or.inl ⟨rfl, rfl, h⟩)
  · cases h
    exact Or.inr (Or.inr ⟨rfl, rfl⟩)

/-- **The mouse handler.** -/
theorem mouseInterruptHandler_outcome {k₀ : Kernel} {flags dx dy : UInt8} (hs : k.Sound)
    (hk₀ : k = k₀.enterInterrupt) (hstack : k₀.runningTask.kstack = [])
    (he : l.event = .mouse flags dx dy)
    (h : k.mouseInterruptHandler img l.noise flags dx dy = .ok k') : Outcome img k₀ l k k' := by
  have hpush : Quiet k (k.push (.mouseTail flags dx dy)) := k.quiet_push rfl
  rcases mouseInterruptHandler_cases h with
    ⟨-, rfl⟩ | ⟨haccept, ⟨-, -, rfl⟩ | ⟨hlast, hflags, hrun⟩ | ⟨-, rfl⟩⟩
  · exact .quiet (.refl _)
  · obtain ⟨g, f, hg, hf, hq⟩ := guiHandleMousePress_raised (k.push (.mouseTail flags dx dy))
      k.mouse.x k.mouse.y
    have hpush' : Quiet { k with gui := g, focusTask := f }
        { k.push (.mouseTail flags dx dy) with gui := g, focusTask := f } :=
      quiet_push { k with gui := g, focusTask := f } rfl
    exact .raised g f hg hf (hpush'.trans hq)
  · have hrel : k₀.mouseReleases flags = true := by
      have hmouse : k.mouse = k₀.mouse := by rw [hk₀]; rfl
      rw [hmouse] at hlast
      simp [mouseReleases, haccept, hlast, hflags]
    have hred : (k.push (.mouseTail flags dx dy)).redWindow = k₀.redWindow := by rw [hk₀]; rfl
    obtain ⟨g, hg, -, hcases⟩ := guiHandleMouseRelease_cases (hpush.toCalm.sound hs) hrun
    have hq : Quiet k { k.push (.mouseTail flags dx dy) with gui := g } :=
      hpush.trans (quiet_devices _ g k.keyboard k.mouse hg)
    rcases hcases with ⟨t, ht, hhalt⟩ | ⟨hnone, rfl | ⟨hbutton, hu | ⟨hl, -, x, hlaunch⟩⟩⟩
    · -- a window is closed
      have hcloses : k₀.mouseCloses flags
          = k.terminalFgTask ((k.push (.mouseTail flags dx dy)).term (some t)).win.terminalId := by
        rw [hred] at ht
        rw [mouseCloses, if_pos hrel, ht, hk₀]
        rfl
      have hrunning : k.running = k₀.running := by rw [hk₀]; rfl
      rcases taskHaltTerminal_cases hhalt with hq' | ⟨hfg, hsys⟩ | ⟨x, hfg, hne, htorn⟩
      · exact .quiet (hq.trans hq')
      · refine halted_outcome .window hs ?_ hq hsys
        have hfg' := hcloses.trans hfg
        simp only [push, modifyTask_running, hrunning] at hfg'
        simp [halts, hstack, he, hfg']
      · refine .closed _ x ?_ hq htorn
        have hfg' := hcloses.trans hfg
        have hne' : x ≠ k.running := hne
        rw [hrunning] at hne'
        simp [closes, hstack, he, hfg', hne']
    · exact .quiet hq
    · exact .refused _ k' hq hu (.refl k')
    · refine .launched _ shellArgs x ?_ hq (fun hw => absurd hw (by decide)) hl hlaunch
      have hbutton' : onTerminalButton k₀.mouse.x k₀.mouse.y = true := by
        rw [hk₀] at hbutton
        exact hbutton
      rw [hred] at hnone
      simp [executes, hstack, he, mouseOpens, hrel, hnone, hbutton']
  · exact .quiet hpush

/-! ## The other entries -/

section Entries

variable {k₀ : Kernel}

theorem resumeFrame_outcome {f : Frame} {rest : List Frame} (hs : k₀.Sound)
    (hstack : k₀.runningTask.kstack = f :: rest) (he : l.event = .resume)
    (h : k₀.pop.resumeFrame l.noise f = .ok k') : Outcome img k₀ l k₀.pop k' := by
  cases f with
  | executeLaunch w =>
    cases h
    exact .quiet (.refl _)
  | terminalRead nbytes => exact .lineRead (terminalReadEnd_lineRead h)
  | rtcRead =>
    cases h
    exact .quiet (quiet_ret _ _)
  | keyboardTail =>
    cases h
    exact .quiet (quiet_terminalSetRunning _ _)
  | mouseTail flags dx dy =>
    cases h
    exact .quiet (quiet_mouseTail _ _ _ _)
  | syscallDone =>
    cases h
    exact .quiet (k₀.pop.quiet_modifyTask k₀.pop.running fun _ =>
      ⟨⟨rfl, rfl, rfl, rfl, rfl, rfl⟩, rfl⟩)
  | signalCheck =>
    have hflags : k₀.pop.runningTask.flags = k₀.runningTask.flags := by simp [pop, runningTask]
    have hsignals : k₀.pop.runningTask.signals = k₀.runningTask.signals := by
      simp [pop, runningTask]
    unfold resumeFrame at h
    simp only [hflags] at h
    cases hkt : k₀.runningTask.flags.kernelTask with
    | true =>
      rw [if_pos hkt] at h
      cases h
      exact .quiet (.refl _)
    | false =>
      rw [if_neg (by simp [hkt])] at h
      rcases signalCheck_cases h with ⟨-, f, rfl⟩ | ⟨cause, f, hfatal, hhalt⟩
      · exact .quiet (quiet_modifySignals _ _ f)
      · refine halted_outcome cause (k₀.quiet_pop.toCalm.sound hs) ?_ (quiet_modifySignals _ _ f)
          hhalt
        rw [hsignals] at hfatal
        simp [halts, hstack, he, hkt, hfatal]

theorem pitInterruptHandler_outcome (h : k.pitInterruptHandler l.noise = .ok k') :
    Outcome img k₀ l k k' := by
  unfold pitInterruptHandler at h
  split at h
  · cases h
    exact .quiet (.refl k)
  have hq : Quiet k k.pitRender.pitAlarm := k.quiet_pitRender.trans (quiet_pitAlarm _)
  revert h hq
  generalize k.pitRender.pitAlarm = k₁
  intro h hq
  unfold pitSchedule at h
  simp only at h
  have hdec : Quiet k₁ (k₁.modifyTask k₁.running fun t => { t with
      remainTime := t.remainTime - schedPitInterval }) :=
    k₁.quiet_modifyTask k₁.running fun _ => ⟨⟨rfl, rfl, rfl, rfl, rfl, rfl⟩, rfl⟩
  split at h
  · exact .yields k₁ hq (schedLaunch_scheduled h)
  split at h
  · exact .yields _ (hq.trans (hdec.trans (quiet_schedRefillTime _ _))) (schedLaunch_scheduled h)
  · cases h
    exact .quiet (hq.trans hdec)

theorem rtcInterruptHandler_outcome (he : l.event = .rtc)
    (h : k.rtcInterruptHandler l.noise = .ok k') : Outcome img k₀ l k k' := by
  unfold rtcInterruptHandler at h
  obtain ⟨⟨k₁, wakeCount⟩, hloop, h⟩ := bind_eq_ok.mp h
  by_cases hpos : 0 < wakeCount
  · simp only [hpos, if_true] at h
    exact .rtc k₁ wakeCount hloop he (Or.inr ⟨hpos, schedLaunch_scheduled h⟩)
  · simp only [hpos, if_false] at h
    cases h
    exact .rtc _ wakeCount hloop he (Or.inl ⟨by omega, rfl⟩)

theorem keyboardInterruptHandler_outcome {scanCode : UInt8} (hk₀ : k = k₀.enterInterrupt)
    (hstack : k₀.runningTask.kstack = []) (he : l.event = .keyboard scanCode)
    (h : k.keyboardInterruptHandler l.noise scanCode = .ok k') : Outcome img k₀ l k k' := by
  obtain ⟨v, r, h'⟩ : ∃ v r,
      ((k.mapped v r).push .keyboardTail).handleScanCode l.noise scanCode = .ok k' := by
    unfold keyboardInterruptHandler at h
    cases hf : k.focusTask with
    | none =>
      rw [hf] at h
      exact ⟨k.vidmem.vramEntry, k.runningTerm, k.mapped_self.symm ▸ h⟩
    | some f =>
      obtain ⟨v, r, hset⟩ := k.terminalSetRunning_eq (k.task f).terminal
      rw [hf] at h
      exact ⟨v, r, hset ▸ h⟩
  have hq : Quiet k ((k.mapped v r).push .keyboardTail) :=
    (k.quiet_mapped v r).trans (quiet_push _ rfl)
  rcases handleScanCode_cases h' with hq' | ⟨f, kb, term, effect, k₁, hcode, hf, hp, ht, hw⟩
  · exact .quiet (hq.trans hq')
  have hterminal : (((k.mapped v r).push .keyboardTail).task f).terminal = (k.task f).terminal :=
    (hq.core f).terminal
  rw [hterminal] at hp
  have hf₀ : k₀.focusTask = some f := by
    rw [hk₀] at hf
    exact hf
  have hp₀ : (k₀.term (k₀.task f).terminal).pressKey (k₀.keyboard.setKey scanCode.toNat true)
      scanCode.toNat = .ok (kb, term, effect) := by
    have hrole := (k₀.quiet_enterInterrupt.core f).terminal
    rw [← hrole, ← hk₀]
    rw [hk₀] at hp ⊢
    exact hp
  have heffect : k₀.keyEffect l = some effect := by
    simp only [keyEffect, hstack, he, hf₀, if_neg hcode, hp₀]
  refine .key k₁ f _ kb scanCode.toNat term effect hf hp heffect ⟨?_, ?_, ?_⟩ ?_
  · exact (hq.toCalm.withFocus _).trans ht.calm
  · exact hterminal ▸ ht.typed
  · exact fun u hu => ht.line u (hterminal.symm ▸ hu)
  · rcases hw with hw | ⟨hw, hwake⟩
    · exact Or.inl hw
    · obtain ⟨g, hg, hsched⟩ := wakeFocus_eq hwake
      have hg' : g = k.keyTarget f effect :=
        Option.some.inj (hg.symm.trans ht.calm.focusTask)
      refine Or.inr ⟨hw, ?_, hg' ▸ hsched⟩
      have htarget : k₀.keyTarget f effect = k.keyTarget f effect := by rw [hk₀]; rfl
      simp only [keyWakes, hstack, he, hf₀, if_neg hcode, hp₀, hw, if_true, htarget]

/-- **What a read can do.** -/
theorem systemRead_outcome {fd : ℤ} {bufNull : Bool} {nbytes : ℤ}
    (he : l.event = .read fd bufNull nbytes) (hstack : k₀.runningTask.kstack = [])
    (hfiles : k.runningTask.fileArray = k₀.runningTask.fileArray)
    (hkt : k.runningTask.flags.kernelTask = false)
    (h : k.systemRead img l.noise fd bufNull nbytes = .ok k') : Outcome img k₀ l k k' := by
  unfold systemRead at h
  split at h
  · next value data fa hread =>
    cases h
    exact .quiet (k.quiet_own (fun _ => fa) (·.rtc) value)
  · next hterminal =>
    rw [hfiles] at hterminal
    rcases systemTerminalRead_eq h with hread | ⟨term, hb, hsched⟩
    · exact .lineRead hread
    · exact .readWaits _ term hb ⟨nbytes, by simp [lineAsked, hstack, he, hterminal], rfl⟩ hkt hsched
  · rcases systemRtcRead_eq h with ⟨-, rfl⟩ | ⟨-, counter, -, hsched⟩
    · exact .quiet (k.quiet_ret _)
    · exact .rtcWaits counter hkt hsched

theorem systemVidmap_outcome (screenStart : BitVec 32) :
    Outcome img k₀ l k (k.systemVidmap screenStart) := by
  unfold systemVidmap
  split
  · exact .quiet (k.quiet_ret _)
  cases ht : k.runningTask.terminal with
  | none => exact .quiet (k.quiet_ret _)
  | some t => exact .vidmap t ht rfl

/-- **What a system call can do.** -/
theorem userStep_outcome (hs : k₀.Sound) (hstack : k₀.runningTask.kstack = [])
    (hkt : k₀.runningTask.flags.kernelTask = false)
    (h : k₀.userStep img l.noise l.event = .ok k') : Outcome img k₀ l (k₀.entered l) k' := by
  have hs' := k₀.quiet_enterSystemCall.toCalm.sound hs
  have hkt' : k₀.enterSystemCall.runningTask.flags.kernelTask = false := by
    rw [← hkt]
    exact congrArg _ (k₀.quiet_enterSystemCall.core k₀.running).flags
  cases he : l.event <;> rw [he] at h <;> unfold userStep at h <;> simp only [reduceCtorEq] at h
  case execute command =>
    have hent : k₀.entered l = k₀.enterSystemCall := by simp [entered, hstack, he]
    rw [hent]
    cases h
    have ha : (userArgs command).wait ≠ 0 ∨ (userArgs command).newTerminal = true :=
      Or.inl (by show (1 : ℤ) ≠ 0; decide)
    rcases systemExecute_sound img l.noise hs' (not_slotLeaks ha) with
      ⟨-, k₂, hrun, hu⟩ | ⟨hl, x, k₂, hrun, hlaunch⟩
    · have hrun' : k₀.enterSystemCall.lowlevelSysExecute img l.noise command = k₂.ret (-1) := by
        unfold lowlevelSysExecute
        rw [show (⟨command, 1, false, false⟩ : ExecuteArgs) = userArgs command from rfl, hrun]
      exact .refused _ k₂ (.refl _) hu (hrun' ▸ quiet_ret _ _)
    · have hrun' : k₀.enterSystemCall.lowlevelSysExecute img l.noise command = k₂ := by
        unfold lowlevelSysExecute
        rw [show (⟨command, 1, false, false⟩ : ExecuteArgs) = userArgs command from rfl, hrun]
      refine .launched _ (userArgs command) x ?_ (.refl _) (fun _ => rfl) hl (hrun' ▸ hlaunch)
      simp [executes, hstack, he, hkt]
  case halt status =>
    have hent : k₀.entered l = k₀.enterSystemCall := by simp [entered, hstack, he]
    rw [hent]
    exact halted_outcome (.call status) hs' (by simp [halts, hstack, he, hkt]) (.refl _) h
  case read fd bufNull nbytes =>
    have hent : k₀.entered l = k₀.enterSystemCall := by simp [entered, hstack, he]
    rw [hent]
    exact systemRead_outcome he hstack (by simp [enterSystemCall, push, runningTask]) hkt' h
  case write fd bufNull word nbytes =>
    have hent : k₀.entered l = k₀.enterSystemCall := by simp [entered, hstack, he]
    rw [hent]
    exact .quiet (systemWrite_quiet h)
  case openFile filename =>
    have hent : k₀.entered l = k₀.enterSystemCall := by simp [entered, hstack, he]
    rw [hent]
    exact .quiet (systemOpen_quiet h)
  case close fd =>
    have hent : k₀.entered l = k₀.enterSystemCall := by simp [entered, hstack, he]
    rw [hent]
    cases h
    exact .quiet (quiet_systemClose _ _)
  case getargs nbytes =>
    have hent : k₀.entered l = k₀.enterSystemCall := by simp [entered, hstack, he]
    rw [hent]
    cases h
    exact .quiet (quiet_systemGetargs _ _)
  case vidmap screenStart =>
    have hent : k₀.entered l = k₀.enterSystemCall := by simp [entered, hstack, he]
    rw [hent]
    cases h
    exact systemVidmap_outcome screenStart
  case setHandler signum address =>
    have hent : k₀.entered l = k₀.enterSystemCall := by simp [entered, hstack, he]
    rw [hent]
    cases h
    exact .quiet (quiet_systemSetHandler _ _ _)
  case sigreturn =>
    have hent : k₀.entered l = k₀.enterSystemCall := by simp [entered, hstack, he]
    rw [hent]
    cases h
    exact .quiet (quiet_systemSigreturn _ _)
  case exception num =>
    have hent : k₀.entered l = k₀.enterInterrupt := by simp [entered, hstack, he]
    rw [hent]
    cases h
    exact .quiet (quiet_signalSend _ _)

end Entries

theorem schedYield_outcome {k₀ : Kernel} (h : k.schedYield l.noise = .ok k') :
    Outcome img k₀ l k k' := by
  unfold schedYield at h
  simp only at h
  split at h
  · exact .yields k (.refl k) (schedLaunch_scheduled h)
  · exact .yields _ (k.quiet_schedRefillTime k.running) (schedLaunch_scheduled h)

/-- **What a step can do.** -/
theorem step_outcome {k₀ : Kernel} (hs : k₀.Sound) (h : k₀.step img l = .ok k') :
    Outcome img k₀ l (k₀.entered l) k' := by
  have hint := k₀.quiet_enterInterrupt.toCalm.sound hs
  unfold step at h
  split at h
  · next f rest hstack he =>
    have hent : k₀.entered l = k₀.pop := by simp [entered, hstack]
    rw [hent]
    exact resumeFrame_outcome hs hstack he h
  · cases h
  · cases h
  · next hstack he =>
    have hent : k₀.entered l = k₀.enterInterrupt := by simp [entered, hstack, he]
    rw [hent]
    exact pitInterruptHandler_outcome h
  · next hstack he =>
    have hent : k₀.entered l = k₀.enterInterrupt := by simp [entered, hstack, he]
    rw [hent]
    exact rtcInterruptHandler_outcome he h
  · next scanCode hstack he =>
    have hent : k₀.entered l = k₀.enterInterrupt := by simp [entered, hstack, he]
    rw [hent]
    exact keyboardInterruptHandler_outcome rfl hstack he h
  · next flags dx dy hstack he =>
    have hent : k₀.entered l = k₀.enterInterrupt := by simp [entered, hstack, he]
    rw [hent]
    exact mouseInterruptHandler_outcome hint rfl hstack he h
  · next hstack he =>
    have hent : k₀.entered l = k₀ := by simp [entered, hstack, he]
    rw [hent]
    split at h
    · exact schedYield_outcome h
    · cases h
  · next hstack _ _ _ _ _ _ =>
    cases hkt : k₀.runningTask.flags.kernelTask with
    | true =>
      rw [if_pos hkt] at h
      cases h
    | false =>
      rw [if_neg (by simp [hkt])] at h
      exact userStep_outcome hs hstack hkt h

end Kernel

end AuroraOS
