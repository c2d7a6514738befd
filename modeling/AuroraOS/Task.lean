/-
# Executing and halting tasks

`task/task.c`: task slots, `system_execute` with its ways out, `tear_down_task`,
`system_halt`, and the focus.
-/
import AuroraOS.Terminal
import AuroraOS.Gui

namespace AuroraOS

open Ring

namespace Kernel

variable (k : Kernel)

/-! ## Slots -/

/-- `task_allocate_new_slot`. -/
def taskAllocateNewSlot : Kernel × Option TaskId :=
  if k.taskCount ≥ taskMaxCount then (k, none)
  else
    let k := { k with taskCount := k.taskCount + 1 }
    match (List.finRange 10).find? fun x => !(k.task x).valid with
    | some x => (k.modifyTask x fun t => { t with valid := true }, some x)
    | none => (k, none)

/-- `task_deallocate`; `task_count` is unsigned. -/
def taskDeallocate (x : TaskId) : Kernel :=
  { k.modifyTask x fun t => { t with valid := false } with
    taskCount := (k.taskCount + (2 ^ 32 - 1)) % 2 ^ 32 }

/-- `terminal_allocate`. -/
def terminalAllocate : Option (Kernel × TermId) :=
  ((List.finRange 5).find? fun t => !(k.term (some t)).valid).map fun t =>
    (k.modifyTerm (some t) Terminal.allocate, t)

/-- `terminal_deallocate`. -/
def terminalDeallocate (t : TermId) : Kernel :=
  k.modifyTerm (some t) fun term => { term with valid := false }

/-! ## Focus -/

/-- `task_set_focus_task`. -/
def taskSetFocusTask (x : Option TaskId) : Kernel := { k with focusTask := x }

/-- `terminal_focus_printf`, as far as the page directory is concerned. -/
def terminalFocusPrintf : Kernel :=
  match k.focusTask with
  | none => k
  | some f => (k.terminalSetRunning (k.task f).terminal).terminalSetRunning k.runningTerm

/-- `task_change_focus`. -/
def taskChangeFocus (t : TermId) : Kernel :=
  match k.terminalFgTask t with
  | none => k.terminalFocusPrintf
  | some x => k.taskSetFocusTask (some x)

/-- `gui_activate_window`. -/
def guiActivateWindow (win : TermId) : Kernel :=
  match k.gui.findWindowIdx (some win) with
  | none => k
  | some idx =>
    if k.gui.windowStack.headD none = some win then k
    else { k with gui := k.gui.raise idx win }.taskChangeFocus (k.term (some win)).win.terminalId

/-- `get_another_term_id`; `none` is `NULL_TERMINAL_ID`. -/
def getAnotherTermId (start : TermId) : Option TermId :=
  ([1, 2, 3, 4].map fun i => start - i).find? fun t => (k.terminalFgTask t).isSome

/-! ## `system_execute` -/

/-- `execute_parse_command`: the name and the argument string. -/
def executeParseCommand (command : List UInt8) : List UInt8 × Option (List UInt8) :=
  match command.dropWhile (· ≠ 32) with
  | [] => (command, none)
  | _ :: args => (command.takeWhile (· ≠ 32), some args)

/-- The arguments of `system_execute`; `wait` is `wait_for_return`, and `kernelTask`
says that `kernel_task_eip` is not `NULL`. -/
structure ExecuteArgs where
  command : List UInt8
  wait : ℤ
  newTerminal : Bool
  kernelTask : Bool

/-- Phase 1, once there is a slot: the flags and the parent of the new task.  An error
carries the state in which `system_execute` returns -1. -/
def executeFlags (a : ExecuteArgs) (x : TaskId) : Except Kernel Kernel :=
  let initTask := k.taskCount == 1
  if initTask ∧ a.wait = 1 then
    .error ((k.modifyTask x fun t => { t with
      flags := { initTask := true }, parent := none }).taskDeallocate x)
  else
    let k := k.modifyTask x fun t => { t with
      flags := { initTask := initTask }
      parent := if !initTask && a.wait == 1 then some k.running else none }
    -- the slot is not given back on this way out
    if !initTask ∧ a.wait = 0 ∧ !a.newTerminal ∧ k.runningTask.terminal ≠ none then .error k
    else if a.kernelTask ∧ a.wait = 1 then .error (k.taskDeallocate x)
    else if a.kernelTask ∧ a.newTerminal then .error (k.taskDeallocate x)
    else
      let k := k.modifyTask x fun t => { t with
        flags := { t.flags with kernelTask := a.kernelTask } }
      if a.wait = -1 ∧ !a.kernelTask then .error (k.taskDeallocate x)
      else .ok (k.modifyTask x fun t => { t with
        flags := { t.flags with idleTask := a.wait == -1 } })

/-- Phase 1, the rest: the argument string, and a list node that is linked to itself. -/
def executeStrings (a : ExecuteArgs) (x : TaskId) : Kernel :=
  { k.modifyTask x fun t => { t with
      vidmapEnabled := false
      args := (executeParseCommand a.command).2 } with
    links := k.links.reset (.item x) }

/-- Phase 2, the terminal of a task that gets its own.  When there is no window left
everything is given back, and the function goes on. -/
def executeNewTerminal (x : TaskId) : Except Kernel Kernel :=
  let k := k.modifyTask x fun t => { t with flags := { t.flags with terminalOwner := true } }
  match k.terminalAllocate with
  | none => .error (k.taskDeallocate x)
  | some (k, t) =>
    let k := k.modifyTask x fun task => { task with terminal := some t }
    let k := { k with vidmem := k.vidmem.terminalVidmemOpen t }
    match k.guiNewWindow t with
    | some k => .ok k
    | none =>
      let k := { k with vidmem := k.vidmem.terminalVidmemClose t }
      .ok ((k.terminalDeallocate t).taskDeallocate x)

/-- Phase 2, the terminal of a user task. -/
def executeTerminal (a : ExecuteArgs) (x : TaskId) : Except Kernel Kernel :=
  if a.newTerminal then k.executeNewTerminal x
  else
    .ok (k.modifyTask x fun t => { t with
      terminal := if t.flags.initTask then none else k.runningTask.terminal })

/-- Phase 2, the program of a user task. -/
def executeProgram (img : FsImage) (a : ExecuteArgs) (noise : Noise) (x : TaskId) :
    Except Kernel Kernel :=
  let (paging, pageId) := k.paging.taskPagingAllocateAndSet img
    (executeParseCommand a.command).1 noise.stack
  let k := { k.modifyTask x fun t => { t with pageId := pageId } with paging := paging }
  if pageId < 0 then
    match (k.task x).flags.terminalOwner, (k.task x).terminal with
    | true, some t =>
      let k := k.guiDestroyWindow t
      let k := { k with vidmem := k.vidmem.terminalVidmemClose t }
      .error ((k.terminalDeallocate t).taskDeallocate x)
    | _, _ => .error (k.taskDeallocate x)
  else
    match (k.task x).terminal with
    | none => .ok (k.terminalSetRunning none)
    | some t =>
      let k := { k with terminalFgTask := Function.update k.terminalFgTask t (some x) }
      let k := (k.taskSetFocusTask (some x)).guiActivateWindow t
      .ok (k.terminalSetRunning (some t))

/-- Phase 2. -/
def executeLoad (img : FsImage) (a : ExecuteArgs) (noise : Noise) (x : TaskId) :
    Except Kernel Kernel :=
  if a.kernelTask then
    .ok (k.modifyTask x fun t => { t with terminal := none, pageId := -1 })
  else do
    let k ← k.executeTerminal a x
    k.executeProgram img a noise x

/-- `task_signal_init`. -/
def taskSignalInit (s : SignalStruct) : SignalStruct :=
  { s with
    pendingSignal := 0
    maskedSignal := 0
    alarmTime := 0
    currentHandlers := fun _ => .default }

/-- The end of phase 2: the blocks of the new task. -/
def executeInit (x : TaskId) : Kernel :=
  k.modifyTask x fun t => { t with
    rtc := rtcControlInit t.rtc
    fileArray := t.fileArray.init
    signals := taskSignalInit t.signals }

/-- Phase 3: the new task goes to the head of the run queue, its parent to the
tasks that wait for a child. -/
def executeSchedule (a : ExecuteArgs) (x : TaskId) : Kernel :=
  let k := k.modifyTask x fun t => { t with
    remainTime := if t.flags.idleTask then 0 else schedTaskTime }
  let k := k.schedInsertToHead x
  if a.wait = 1 then
    (k.modifyTask k.running fun t => { t with flags := { t.flags with waitingChild := true } })
      |>.schedMoveRunningAfterNode (.head .wait4childList)
  else k

/-- Phase 4: `execute_launch`.  The init task has no caller. -/
def executeLaunch (a : ExecuteArgs) (x : TaskId) : Kernel :=
  let k := if (k.task x).flags.initTask then k else k.push (.executeLaunch (a.wait = 1))
  { k.modifyTask x fun t => { t with kstack := [] } with running := x }

/-- `system_execute` up to the entry of the new task; an error is the state in which it
returns -1. -/
def systemExecute (img : FsImage) (noise : Noise) (a : ExecuteArgs) : Except Kernel Kernel :=
  match k.taskAllocateNewSlot with
  | (k, none) => .error k
  | (k, some x) => do
    let k ← k.executeFlags a x
    let k := k.executeStrings a x
    let k ← k.executeLoad img a noise x
    let k := k.executeInit x
    let k := k.executeSchedule a x
    .ok (k.executeLaunch a x)

/-! ## The end of a task -/

/-- Phase 2 of `tear_down_task`: the parent can run again. -/
def wakeParent (p : TaskId) : Kernel :=
  let k := k.modifyTask p fun t => { t with flags := { t.flags with waitingChild := false } }
  (k.schedRefillTime p).schedInsertToHead p

/-- The terminal of `focus_task_`. -/
def focusTerminal : Except Fault (Option TermId) :=
  match k.focusTask with
  | none => .error .nullFocus
  | some f => .ok (k.task f).terminal

/-- Phase 3 of `tear_down_task`, the terminal that the task owns. -/
def tearDownOwned (t : TermId) : Except Fault Kernel := do
  let k := { k with terminalFgTask := Function.update k.terminalFgTask t none }
  let focus ← k.focusTerminal
  let k := if focus = some t then
      match k.getAnotherTermId t with
      | none => k.taskSetFocusTask none
      | some t' => k.taskSetFocusTask (k.terminalFgTask t')
    else k
  let k := k.guiDestroyWindow t
  let k := { k with vidmem := k.vidmem.terminalVidmemClose t }
  .ok (k.terminalDeallocate t)

/-- Phase 3 of `tear_down_task`, the terminal that goes back to the parent. -/
def tearDownShared (p : TaskId) : Except Fault Kernel :=
  match (k.task p).terminal with
  | none => .error .terminalBounds
  | some t => do
    let k := { k with terminalFgTask := Function.update k.terminalFgTask t (some p) }
    let focus ← k.focusTerminal
    .ok (if focus = some t then k.taskSetFocusTask (some p) else k)

/-- Phases 1 and 2 of `tear_down_task`, and the files of a task that halts itself. -/
def tearDownLists (x : TaskId) : Kernel :=
  let k := { k with links := k.links.reset (.head .tempList) }
  let k := k.moveTaskAfterNode x (.head .tempList)
  let k := match (k.task x).parent with
    | none => k
    | some p => k.wakeParent p
  if x = k.running then k.modifyTask x fun t => { t with fileArray := t.fileArray.clear } else k

/-- Phase 3 of `tear_down_task`, the terminal. -/
def tearDownTerminal (x : TaskId) : Except Fault Kernel :=
  if (k.task x).flags.terminalOwner then
    match (k.task x).terminal with
    | none => .error .terminalBounds
    | some t => k.tearDownOwned t
  else
    match (k.task x).parent with
    | none => .ok k
    | some p => k.tearDownShared p

/-- `tear_down_task`.  At its end `temp_list` goes out of scope. -/
def tearDownTask (x : TaskId) : Except Fault Kernel :=
  if !(k.task x).valid then .ok k
  else do
    let k := k.tearDownLists x
    let k ← k.tearDownTerminal x
    let k := k.taskDeallocate x
    .ok { k with links := k.links.reset (.head .tempList) }

/-- The switch of `system_halt` to the parent. -/
def haltToParent (x p : TaskId) (status : BitVec 32) : Except Fault Kernel := do
  let paging ← k.paging.taskPagingDeallocate (k.task x).pageId
  let k := { k with paging := paging }
  let k ← k.setTaskPage p
  let k := k.terminalSetRunning (k.task p).terminal
  k.switchTo p status

/-- `system_halt`. -/
def systemHalt (noise : Noise) (status : BitVec 32) : Except Fault Kernel :=
  let x := k.running
  if (k.task x).flags.initTask then .error .initHalted
  else do
    let k' ← k.tearDownTask x
    match (k.task x).parent with
    | some p => k'.haltToParent x p status
    | none => do
      let k' ← k'.schedLaunchToCurrentHead noise
      if k'.running = x then .error .haltReturned else .ok k'

/-- `task_halt_terminal`. -/
def taskHaltTerminal (noise : Noise) (t : TermId) : Except Fault Kernel :=
  match k.terminalFgTask t with
  | none => .ok k.terminalFocusPrintf
  | some x => if x = k.running then k.systemHalt noise 255 else k.tearDownTask x

end Kernel

end AuroraOS
