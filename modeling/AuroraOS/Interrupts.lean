/-
# Signals and interrupt handlers

`signal.c`, and the handlers of the PIT, the RTC, the keyboard and the mouse.
-/
import AuroraOS.Task

namespace AuroraOS

open Ring

/-! ## Signals -/

/-- `SIGNAL_DIV_ZERO`. -/
abbrev signalDivZero : ℕ := 0
/-- `SIGNAL_SEGFAULT`. -/
abbrev signalSegfault : ℕ := 1
/-- `SIGNAL_INTERRUPT`. -/
abbrev signalInterrupt : ℕ := 2
/-- `SIGNAL_ALARM`. -/
abbrev signalAlarm : ℕ := 3
/-- `SIGNAL_ALARM_INTERVAL_MS`. -/
abbrev signalAlarmIntervalMs : ℕ := 2000

/-- `pending_signal |= 1 << signal`. -/
def SignalStruct.pend (s : SignalStruct) (signal : ℕ) : SignalStruct :=
  { s with pendingSignal := s.pendingSignal ||| (1 <<< signal) }

/-- The loop of `signal_check`: the lowest signal, with `n` signals left to try. -/
def lowestSignal : ℕ → BitVec 32 → ℕ → ℕ
  | 0, _, i => i
  | n + 1, s, i => if s.getLsbD 0 then i else lowestSignal n (s >>> 1) (i + 1)

/-- `signal_restore_mask`. -/
def SignalStruct.restoreMask (s : SignalStruct) : SignalStruct :=
  { s with maskedSignal := s.available }

/-- `system_set_handler`; the address 0 is `NULL`. -/
def SignalStruct.setHandler (s : SignalStruct) (signum : ℤ) (address : ℕ) : SignalStruct × ℤ :=
  if h : 0 ≤ signum ∧ signum < 5 then
    let handler := if address = 0 then .default else .user address
    ({ s with currentHandlers :=
        Function.update s.currentHandlers ⟨signum.toNat, by omega⟩ handler }, 0)
  else (s, -1)

namespace Kernel

variable (k : Kernel)

/-- Update the signals of one task. -/
def modifySignals (x : TaskId) (f : SignalStruct → SignalStruct) : Kernel :=
  k.modifyTask x fun t => { t with signals := f t.signals }

/-- `signal_send`. -/
def signalSend (signal : ℕ) : Kernel :=
  if signal = signalInterrupt ∨ signal = signalAlarm then
    match k.focusTask with
    | none => k
    | some f => k.modifySignals f (·.pend signal)
  else k.modifySignals k.running (·.pend signal)

/-- The default handler of a signal. -/
def signalDefaultHandler (noise : Noise) (signal : Fin 5) : Except Fault Kernel :=
  match signal with
  | 0 => k.systemHalt noise 256
  | 1 => k.systemHalt noise 256
  | 2 => k.systemHalt noise 15
  | _ => .ok (k.modifySignals k.running (·.restoreMask))

/-- `signal_check` on the way back to a user program.  The stack frame of a handler is
in user memory. -/
def signalCheck (noise : Noise) : Except Fault Kernel :=
  let s := k.runningTask.signals
  let cur := s.pendingSignal &&& ~~~s.maskedSignal
  if cur = 0 then .ok k
  else
    let k := k.modifySignals k.running fun s => { s with
      available := s.maskedSignal
      maskedSignal := BitVec.allOnes 32
      pendingSignal := 0 }
    if h : lowestSignal 5 cur 0 < 5 then
      match s.currentHandlers ⟨lowestSignal 5 cur 0, h⟩ with
      | .default => k.signalDefaultHandler noise ⟨lowestSignal 5 cur 0, h⟩
      | .user _ => .ok k
    else .error .signalBounds

/-! ## The PIT -/

/-- `GUI_RENDER_INTERVAL`. -/
abbrev guiRenderInterval : ℕ := 3

/-- `sched_pit_interrupt_handler`: the rendering of the GUI. -/
def pitRender : Kernel :=
  let k := { k with gui := { k.gui with renderCounter := k.gui.renderCounter + 1 } }
  if k.gui.renderCounter ≥ guiRenderInterval then
    { k.guiRender with gui := { k.gui with renderCounter := 0 } }
  else k

/-- `sched_pit_interrupt_handler`: the alarm of the focus task. -/
def pitAlarm : Kernel :=
  match k.focusTask with
  | none => k
  | some f =>
    let k := k.modifySignals f fun s => { s with alarmTime := s.alarmTime + schedPitInterval.toNat }
    if (k.task f).signals.alarmTime > signalAlarmIntervalMs then
      (k.signalSend signalAlarm).modifySignals f fun s => { s with alarmTime := 0 }
    else k

/-- `sched_pit_interrupt_handler`: the time of the running task. -/
def pitSchedule (noise : Noise) : Except Fault Kernel :=
  if k.runningTask.flags.idleTask then
    k.schedMoveRunningToLast.schedLaunchToCurrentHead noise
  else
    let k := k.modifyTask k.running fun t =>
      { t with remainTime := t.remainTime - schedPitInterval }
    if k.runningTask.remainTime ≤ 0 then
      (k.schedRefillTime k.running).schedMoveRunningToLast.schedLaunchToCurrentHead noise
    else .ok k

/-- `sched_pit_interrupt_handler`. -/
def pitInterruptHandler (noise : Noise) : Except Fault Kernel :=
  if k.links.next (.head .runQueue) = .head .runQueue then .ok k
  else k.pitRender.pitAlarm.pitSchedule noise

/-! ## The RTC -/

/-- One task of `rtc_interrupt_handler`, with the number of tasks woken so far.  The
flag is cleared in the parent of the task. -/
def rtcTick (wakeCount : ℕ) (x : TaskId) : Except Fault (Kernel × ℕ) :=
  let k := k.modifyTask x fun t => { t with rtc := { t.rtc with counter := t.rtc.counter - 1 } }
  if (k.task x).rtc.counter = 0 then
    match (k.task x).parent with
    | none => .error .nullParent
    | some p =>
      let k := k.modifyTask p fun t => { t with flags := { t.flags with waitingRtc := false } }
      .ok ((k.schedRefillTime x).schedInsertToHead x, wakeCount + 1)
  else .ok (k, wakeCount)

/-- `task_list_for_each_safe(node, &rtc_wait_list, temp)`, with at most `n` tasks left
to visit.  The next node is taken before the task is moved. -/
def rtcLoop : ℕ → Kernel → ℕ → ListNode → Except Fault (Kernel × ℕ)
  | n, k, wakeCount, node =>
    if node = .head .rtcWaitList then .ok (k, wakeCount)
    else
      match n with
      | 0 => .error .endlessList
      | n + 1 => do
        let temp := k.links.next node
        let x ← taskFromNode node
        let (k, wakeCount) ← k.rtcTick wakeCount x
        rtcLoop n k wakeCount temp

/-- `rtc_interrupt_handler`. -/
def rtcInterruptHandler (noise : Noise) : Except Fault Kernel := do
  let (k, wakeCount) ← rtcLoop taskMaxCount k 0 (k.links.next (.head .rtcWaitList))
  if wakeCount > 0 then k.schedLaunchToCurrentHead noise else .ok k

/-! ## The keyboard -/

/-- The wake-up of `handle_scan_code`. -/
def wakeFocus (noise : Noise) : Except Fault Kernel :=
  match k.focusTask with
  | none => .error .nullFocus
  | some f =>
    let k := k.modifyTask f fun t => { t with flags := { t.flags with waitingTerminal := false } }
    ((k.schedRefillTime f).schedInsertToHead f).schedLaunchToCurrentHead noise

/-- `handle_scan_code`. -/
def handleScanCode (noise : Noise) (scanCode : UInt8) : Except Fault Kernel :=
  let code := scanCode.toNat
  if scancodePressed ≤ code then
    .ok { k with keyboard := k.keyboard.setKey (code - scancodePressed) false }
  else
    let k := { k with keyboard := k.keyboard.setKey code true }
    match k.focusTask with
    | none => .ok k
    | some f => do
      let t := (k.task f).terminal
      let (keyboard, term, effect) ← (k.term t).pressKey k.keyboard code
      let k := { k.modifyTerm t fun _ => term with keyboard := keyboard }
      let k := if effect.interrupt then k.signalSend signalInterrupt else k
      let k := match effect.focus with
        | none => k
        | some i => k.taskChangeFocus i
      if effect.wake then k.wakeFocus noise else .ok k

/-- `keyboard_interrupt_handler`. -/
def keyboardInterruptHandler (noise : Noise) (scanCode : UInt8) : Except Fault Kernel :=
  let k := match k.focusTask with
    | none => k
    | some f => k.terminalSetRunning (k.task f).terminal
  (k.push .keyboardTail).handleScanCode noise scanCode

/-- `keyboard_interrupt_handler` behind `handle_scan_code`. -/
def keyboardTail : Kernel := k.terminalSetRunning k.runningTask.terminal

/-! ## The mouse -/

/-- The cursor is on the button that opens a terminal. -/
def onTerminalButton (x y : ℤ) : Bool :=
  y < statusBarHeight && x ≥ terminalBX && x < terminalBX + winTerminalBWidth

/-- `gui_handle_mouse_press`. -/
def guiHandleMousePress (x y : ℤ) : Kernel :=
  match k.gui.windowStack.findIdx? fun win => k.checkInsideWindow x y win ≠ .notInWindow with
  | none =>
    if onTerminalButton x y then { k with gui := { k.gui with termButtonPressed := true } } else k
  | some i =>
    let win := k.gui.windowStack.getD i none
    let state := k.checkInsideWindow x y win
    let k := match i, win with
      | _ + 1, some t => k.guiActivateWindow t
      | _, _ => k
    if state = .inTitleBar then { k with gui := { k.gui with mousePressedOnTitle := true } } else k

/-- The program that the terminal button starts. -/
def shellArgs : ExecuteArgs where
  command := [115, 104, 101, 108, 108]
  wait := 0
  newTerminal := true
  kernelTask := false

/-- `gui_handle_mouse_release`. -/
def guiHandleMouseRelease (img : FsImage) (noise : Noise) (x y : ℤ) : Except Fault Kernel :=
  let k := { k with gui := { k.gui with mousePressedOnTitle := false } }
  match k.checkInsideWindow x y (k.gui.windowStack.headD none), k.gui.windowStack.headD none with
  | .inRedButton, some t => k.taskHaltTerminal noise (k.term (some t)).win.terminalId
  | _, _ =>
    let k := { k with gui := { k.gui with termButtonPressed := false } }
    if onTerminalButton x y then
      match k.systemExecute img noise shellArgs with
      | .ok k => .ok k
      | .error k => .ok k
    else .ok k

/-- `ACK`. -/
abbrev mouseAck : UInt8 := 0xFA

/-- The bits of the first byte of a mouse packet. -/
def leftButton (flags : UInt8) : Bool := flags &&& 0x01 != 0

/-- `mouse_interrupt_handler` on a packet, up to the button handlers. -/
def mouseInterruptHandler (img : FsImage) (noise : Noise) (flags dx dy : UInt8) :
    Except Fault Kernel :=
  if flags = mouseAck then .ok k
  else if flags &&& 0x08 = 0 then .ok k
  else if flags &&& 0x40 ≠ 0 ∨ flags &&& 0x80 ≠ 0 then .ok k
  else
    let k := k.push (.mouseTail flags dx dy)
    if !leftButton k.mouse.lastFlags && leftButton flags then
      .ok (k.guiHandleMousePress k.mouse.x k.mouse.y)
    else if leftButton k.mouse.lastFlags && !leftButton flags then
      k.guiHandleMouseRelease img noise k.mouse.x k.mouse.y
    else .ok k

/-- A movement with its sign bit. -/
def movement (sign : Bool) (d : UInt8) : ℤ := if sign then d.toNat - 256 else d.toNat

/-- The new coordinate of the cursor on a screen of this size. -/
def clampCursor (position size : ℤ) : ℤ :=
  if position < 0 then 0 else if position > size - 1 - 8 then size - 1 - 8 else position

/-- `mouse_interrupt_handler` behind the button handlers. -/
def mouseTail (flags dx dy : UInt8) : Kernel :=
  let xMovement := movement (flags &&& 0x10 != 0) dx
  let yMovement := -movement (flags &&& 0x20 != 0) dy
  let (k, ret) := k.guiHandleMouseMove xMovement yMovement
  let (xMovement, yMovement) := if ret ≠ 0 then (0, 0) else (xMovement, yMovement)
  { k with mouse := {
      x := clampCursor (k.mouse.x + xMovement) vgaWidth
      y := clampCursor (k.mouse.y + yMovement) vgaHeight
      lastFlags := flags } }

end Kernel

end AuroraOS
