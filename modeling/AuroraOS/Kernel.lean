/-
# The kernel state

The data of AuroraOS: process control blocks (`task/task.h`), terminals
(`terminal.h`), windows (`gui/gui_window.h`), signals (`signal.h`), file arrays
(`file_system.h`), the paging variables of `task/task_paging.c` and `vidmem.c`,
and the globals that the schedulers and interrupt handlers share.

A pointer to a task or a terminal is the index of its slot, and `none` is `NULL`
for a task and `&null_terminal` for a terminal.  A kernel stack is the list of
the kernel functions that still have to be finished on it (`Frame`): interrupts
are off in the kernel, so a task is switched out only inside one of them.
Text output (`putc`, `printf`) does not change any of this state and is not part
of it.
-/
import AuroraOS.Ring

namespace AuroraOS

open Ring

/-! ## Faults -/

/-- The ways in which the kernel stops behaving as a kernel: a wild memory access,
a processor exception inside the kernel, or an endless loop with interrupts off.
`disabled` marks an event that cannot happen in the state at hand. -/
inductive Fault where
  | disabled
  /-- `task->parent->flags` with no parent (`rtc_interrupt_handler`). -/
  | nullParent
  /-- `focus_task_->terminal` with no focus task (`tear_down_task`). -/
  | nullFocus
  /-- `RTC_HARDWARE_FREQUENCY / 0`. -/
  | divideByZero
  /-- An index of `key_buf` from 128 on. -/
  | keyBufBounds
  /-- An index of `page_id_running` outside 0..9. -/
  | pageIdBounds
  /-- `terminal_fg_task[NULL_TERMINAL_ID]`. -/
  | terminalBounds
  /-- A file descriptor slot from 8 on. -/
  | fileArrayBounds
  /-- `default_handlers[MAX_NUM_SIGNAL]`. -/
  | signalBounds
  /-- `task_from_node` of a sentinel. -/
  | badNode
  /-- A switch to the kernel stack of a slot that has been freed. -/
  | freedTask
  /-- `system_halt` comes back to the task it has torn down. -/
  | haltReturned
  /-- The init task halts: `while (1) {}`. -/
  | initHalted
  /-- `task_list_for_each_safe` does not come back to the sentinel. -/
  | endlessList
  deriving DecidableEq

/-! ## Files -/

/-- The four operation tables of `file_system.c`. -/
inductive OpTable where
  | terminal
  | rtc
  | dir
  | file
  deriving DecidableEq

/-- `file_array_entry_t`. -/
structure FileArrayEntry where
  fileOpTable : OpTable
  inode : ℕ
  filePosition : ℕ
  inUse : Bool
  deriving DecidableEq

/-- `file_array_t`, with `MAX_OPEN_FILE = 8` entries. -/
structure FileArray where
  openedFiles : Fin 8 → FileArrayEntry
  currentOpenFileNum : ℤ

/-! ## Signals and the RTC -/

/-- `rtc_control_t`. -/
structure RtcControl where
  targetFreq : ℤ
  counter : ℤ
  deriving DecidableEq

/-- A signal handler: the default one of its signal, or a user address. -/
inductive SignalHandler where
  | default
  | user (address : ℕ)
  deriving DecidableEq

/-- `signal_struct_t`, with `MAX_NUM_SIGNAL = 5` handlers. -/
structure SignalStruct where
  pendingSignal : BitVec 32
  maskedSignal : BitVec 32
  available : BitVec 32
  alarmTime : ℕ
  currentHandlers : Fin 5 → SignalHandler

/-! ## Terminals and windows -/

/-- An index of `terminal_slot` (`TERMINAL_MAX_COUNT = 5`). -/
abbrev TermId := Fin 5

instance neZero_terminalMaxCount : NeZero 5 := ⟨by decide⟩

/-- `gui_window_t`, without the text buffer. -/
structure GuiWindow where
  termX : ℤ
  termY : ℤ
  terminalId : TermId
  deriving DecidableEq

/-- `KEYBOARD_BUF_SIZE`. -/
abbrev keyboardBufSize : ℕ := 128

/-- `terminal_t`, without the text screen.  `key_buf` has `keyboardBufSize` bytes;
`key_buf_cnt` and `user_ask_len` are 8-bit. -/
structure Terminal where
  valid : Bool
  keyBuf : ℕ → UInt8
  keyBufCnt : ℕ
  userAskLen : ℕ
  win : GuiWindow

/-! ## Tasks -/

/-- An index of a task slot (`TASK_MAX_COUNT = 10`). -/
abbrev TaskId := Fin 10

/-- The bits of `task_t.flags`. -/
structure TaskFlags where
  initTask : Bool := false
  kernelTask : Bool := false
  waitingChild : Bool := false
  waitingRtc : Bool := false
  waitingTerminal : Bool := false
  terminalOwner : Bool := false
  idleTask : Bool := false
  deriving DecidableEq

/-- A kernel function that a task still has to finish, at the point where it goes
on when the task runs again. -/
inductive Frame where
  /-- Label 1 of `execute_launch`: EAX becomes the result of `system_execute`. -/
  | executeLaunch (waitForReturn : Bool)
  /-- `system_terminal_read` behind `sched_launch_to_current_head()`. -/
  | terminalRead (nbytes : ℤ)
  /-- `system_rtc_read` behind `sched_launch_to_current_head()`. -/
  | rtcRead
  /-- `keyboard_interrupt_handler` behind `handle_scan_code()`. -/
  | keyboardTail
  /-- `mouse_interrupt_handler` behind the button handlers. -/
  | mouseTail (flags dx dy : UInt8)
  /-- `system_call_entry_done`: EAX goes to the saved hardware context. -/
  | syscallDone
  /-- `call signal_check; RESTORE_HW_CONTEXT; iret`. -/
  | signalCheck
  deriving DecidableEq

/-- `task_t`.  The list node is in `Kernel.links`; `kstack` is what lies on the
kernel stack at `kesp`, and `hwEax` the EAX of the saved hardware context. -/
structure Task where
  valid : Bool
  args : Option (List UInt8)
  flags : TaskFlags
  parent : Option TaskId
  pageId : ℤ
  vidmapEnabled : Bool
  remainTime : ℤ
  rtc : RtcControl
  terminal : Option TermId
  fileArray : FileArray
  signals : SignalStruct
  kstack : List Frame
  hwEax : BitVec 32

/-- The sentinels of the task lists, with the one on the stack of `tear_down_task`. -/
inductive Sentinel where
  | runQueue
  | wait4childList
  | rtcWaitList
  | terminalWaitList
  | tempList
  deriving DecidableEq

/-- A `task_list_node_t`: a sentinel, or the node inside a task. -/
abbrev ListNode := Node Sentinel TaskId

/-! ## Paging -/

/-- The globals of `task_paging.c` and entry 32 of `kernel_page_directory`. -/
structure Paging where
  pageIdCount : ℤ
  pageIdRunning : Fin 10 → Bool
  imgEntry : BitVec 32

/-- The page tables that `vidmem.c` puts into the page directory. -/
inductive PageTable where
  | kernelPageTable0
  | userVideoMemory (t : TermId)
  | kernelVideoMemory (t : TermId)
  deriving DecidableEq

/-- A `PDE_4kB_t`, with the bits that are ever set. -/
structure Pde4kB where
  baseAddress : Option PageTable
  canWrite : Bool
  userOrSuper : Bool
  present : Bool
  deriving DecidableEq

/-- The globals of `vidmem.c`, with entries 0 and 33 of `kernel_page_directory`. -/
structure Vidmem where
  terminalOpened : TermId → Bool
  vramEntry : Pde4kB
  vidmapEntry : Pde4kB

/-! ## Devices -/

/-- The globals of `gui_window.c` and `gui_render.c`.  `window_stack` has
`GUI_MAX_WINDOW_NUM = 5` entries; a window is the one inside its terminal. -/
structure Gui where
  windowStack : List (Option TermId)
  mousePressedOnTitle : Bool
  termButtonPressed : Bool
  renderCounter : ℕ

/-- `key_flags` and `capslock_status` of `terminal.c`. -/
structure Keyboard where
  keyFlags : ℕ → Bool
  capslockStatus : Bool

/-- The globals of `mouse.c`. -/
structure Mouse where
  x : ℤ
  y : ℤ
  lastFlags : UInt8
  deriving DecidableEq

/-! ## The kernel -/

/-- The whole kernel state.  `running` is the task whose kernel stack ESP is in
(`running_task()`), `eax` the register EAX inside the kernel. -/
structure Kernel where
  running : TaskId
  eax : BitVec 32
  task : TaskId → Task
  taskCount : ℕ
  links : Links ListNode
  terminalFgTask : TermId → Option TaskId
  focusTask : Option TaskId
  term : Option TermId → Terminal
  runningTerm : Option TermId
  paging : Paging
  vidmem : Vidmem
  gui : Gui
  keyboard : Keyboard
  mouse : Mouse

/-- What the code reads without having set it: EAX after a switch by the
scheduler, and the bytes of an uninitialised buffer on the stack. -/
structure Noise where
  eax : BitVec 32
  stack : ℕ → UInt8

namespace Kernel

/-- Update one task. -/
def modifyTask (k : Kernel) (x : TaskId) (f : Task → Task) : Kernel :=
  { k with task := Function.update k.task x (f (k.task x)) }

/-- Update one terminal. -/
def modifyTerm (k : Kernel) (t : Option TermId) (f : Terminal → Terminal) : Kernel :=
  { k with term := Function.update k.term t (f (k.term t)) }

/-- `*running_task()`. -/
def runningTask (k : Kernel) : Task := k.task k.running

section Projections

variable (k : Kernel) (x : TaskId) (f : Task → Task) (t : Option TermId) (g : Terminal → Terminal)

@[simp] theorem modifyTask_task :
    (k.modifyTask x f).task = Function.update k.task x (f (k.task x)) := rfl
@[simp] theorem modifyTask_running : (k.modifyTask x f).running = k.running := rfl
@[simp] theorem modifyTask_eax : (k.modifyTask x f).eax = k.eax := rfl
@[simp] theorem modifyTask_taskCount : (k.modifyTask x f).taskCount = k.taskCount := rfl
@[simp] theorem modifyTask_links : (k.modifyTask x f).links = k.links := rfl
@[simp] theorem modifyTask_terminalFgTask :
    (k.modifyTask x f).terminalFgTask = k.terminalFgTask := rfl
@[simp] theorem modifyTask_focusTask : (k.modifyTask x f).focusTask = k.focusTask := rfl
@[simp] theorem modifyTask_term : (k.modifyTask x f).term = k.term := rfl
@[simp] theorem modifyTask_runningTerm : (k.modifyTask x f).runningTerm = k.runningTerm := rfl
@[simp] theorem modifyTask_paging : (k.modifyTask x f).paging = k.paging := rfl
@[simp] theorem modifyTask_vidmem : (k.modifyTask x f).vidmem = k.vidmem := rfl
@[simp] theorem modifyTask_gui : (k.modifyTask x f).gui = k.gui := rfl
@[simp] theorem modifyTask_keyboard : (k.modifyTask x f).keyboard = k.keyboard := rfl
@[simp] theorem modifyTask_mouse : (k.modifyTask x f).mouse = k.mouse := rfl

@[simp] theorem modifyTerm_term :
    (k.modifyTerm t g).term = Function.update k.term t (g (k.term t)) := rfl
@[simp] theorem modifyTerm_running : (k.modifyTerm t g).running = k.running := rfl
@[simp] theorem modifyTerm_eax : (k.modifyTerm t g).eax = k.eax := rfl
@[simp] theorem modifyTerm_task : (k.modifyTerm t g).task = k.task := rfl
@[simp] theorem modifyTerm_taskCount : (k.modifyTerm t g).taskCount = k.taskCount := rfl
@[simp] theorem modifyTerm_links : (k.modifyTerm t g).links = k.links := rfl
@[simp] theorem modifyTerm_terminalFgTask :
    (k.modifyTerm t g).terminalFgTask = k.terminalFgTask := rfl
@[simp] theorem modifyTerm_focusTask : (k.modifyTerm t g).focusTask = k.focusTask := rfl
@[simp] theorem modifyTerm_runningTerm : (k.modifyTerm t g).runningTerm = k.runningTerm := rfl
@[simp] theorem modifyTerm_paging : (k.modifyTerm t g).paging = k.paging := rfl
@[simp] theorem modifyTerm_vidmem : (k.modifyTerm t g).vidmem = k.vidmem := rfl
@[simp] theorem modifyTerm_gui : (k.modifyTerm t g).gui = k.gui := rfl
@[simp] theorem modifyTerm_keyboard : (k.modifyTerm t g).keyboard = k.keyboard := rfl
@[simp] theorem modifyTerm_mouse : (k.modifyTerm t g).mouse = k.mouse := rfl

end Projections

end Kernel

end AuroraOS
