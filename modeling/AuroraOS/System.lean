/-
# The kernel as a transition system

A step is one entry into the kernel, from a user program or by an interrupt, up to the
point where the kernel leaves the stack it is on or comes back to that program.
Interrupts are off in the kernel, so a task that has been switched to first goes
through the functions left on its kernel stack, one `resume` step for each.

The two kernel tasks run with interrupts on: the init task yields in a loop, the idle
task does nothing.
-/
import AuroraOS.Interrupts
import AuroraOS.Machine

namespace AuroraOS

open Ring

/-- What enters the kernel: the functions left on the kernel stack of the running task,
a system call or an exception of a user program, the loop of the init task, or an
interrupt. -/
inductive Event where
  | resume
  | execute (command : List UInt8)
  | halt (status : BitVec 32)
  | read (fd : ℤ) (bufNull : Bool) (nbytes : ℤ)
  | write (fd : ℤ) (bufNull : Bool) (word : BitVec 32) (nbytes : ℤ)
  | openFile (filename : List UInt8)
  | close (fd : ℤ)
  | getargs (nbytes : ℤ)
  | vidmap (screenStart : BitVec 32)
  | setHandler (signum : ℤ) (address : ℕ)
  | sigreturn
  | exception (num : ℕ)
  | yield
  | pit
  | rtc
  | keyboard (scanCode : UInt8)
  | mouse (flags dx dy : UInt8)

/-- An event, with what the kernel finds in places it has not written. -/
structure Label where
  event : Event
  noise : Noise

namespace Kernel

variable (k : Kernel)

/-! ## System calls -/

/-- The value that a system call returns. -/
def ret (value : ℤ) : Kernel := { k with eax := BitVec.ofInt 32 value }

/-- `lowlevel_sys_execute`. -/
def lowlevelSysExecute (img : FsImage) (noise : Noise) (command : List UInt8) : Kernel :=
  match k.systemExecute img noise
      { command := command, wait := 1, newTerminal := false, kernelTask := false } with
  | .ok k => k
  | .error k => k.ret (-1)

/-- `system_terminal_read` from where `i` is known on. -/
def terminalReadEnd (i : ℕ) : Except Fault Kernel := do
  let t := k.runningTask.terminal
  let (_, term) ← (k.term t).readEnd i
  .ok ((k.modifyTerm t fun _ => term).ret i)

/-- `system_terminal_read`, up to its sleep. -/
def systemTerminalRead (noise : Noise) (nbytes : ℤ) : Except Fault Kernel :=
  let nbytes := Terminal.limitBytes nbytes
  let t := k.runningTask.terminal
  match (k.term t).readBegin nbytes with
  | (term, some i) => (k.modifyTerm t fun _ => term).terminalReadEnd i
  | (term, none) =>
    let k := k.modifyTerm t fun _ => term
    let k := k.modifyTask k.running fun t => { t with
      flags := { t.flags with waitingTerminal := true } }
    ((k.schedMoveRunningAfterNode (.head .terminalWaitList)).push (.terminalRead nbytes))
      |>.schedLaunchToCurrentHead noise

/-- `system_rtc_read`, up to its sleep. -/
def systemRtcRead (noise : Noise) : Except Fault Kernel :=
  if k.runningTask.rtc.targetFreq = -1 then .ok (k.ret (-1))
  else do
    let counter ← rtcRefill k.runningTask.rtc.targetFreq
    let k := k.modifyTask k.running fun t => { t with
      flags := { t.flags with waitingRtc := true }
      rtc := { t.rtc with counter := counter } }
    ((k.schedMoveRunningAfterNode (.head .rtcWaitList)).push .rtcRead)
      |>.schedLaunchToCurrentHead noise

/-- `system_read`. -/
def systemRead (img : FsImage) (noise : Noise) (fd : ℤ) (bufNull : Bool) (nbytes : ℤ) :
    Except Fault Kernel :=
  match k.runningTask.fileArray.systemRead img fd bufNull nbytes with
  | .done value _ fa => .ok ((k.modifyTask k.running fun t => { t with fileArray := fa }).ret value)
  | .terminal => k.systemTerminalRead noise nbytes
  | .rtc => k.systemRtcRead noise

/-- `system_write`. -/
def systemWrite (fd : ℤ) (bufNull : Bool) (word : BitVec 32) (nbytes : ℤ) :
    Except Fault Kernel := do
  let t := k.runningTask
  let (value, rtc) ← t.fileArray.systemWrite t.rtc fd bufNull word nbytes
  .ok ((k.modifyTask k.running fun t => { t with rtc := rtc }).ret value)

/-- `system_open`. -/
def systemOpen (img : FsImage) (filename : List UInt8) : Except Fault Kernel := do
  let t := k.runningTask
  let (fd, fa, rtc) ← t.fileArray.systemOpen t.rtc img filename
  .ok ((k.modifyTask k.running fun t => { t with fileArray := fa, rtc := rtc }).ret fd)

/-- `system_close`. -/
def systemClose (fd : ℤ) : Kernel :=
  let (value, fa) := k.runningTask.fileArray.systemClose fd
  (k.modifyTask k.running fun t => { t with fileArray := fa }).ret value

/-- `system_getargs`; `strlen` is unsigned, and so is its comparison with `nbytes`. -/
def systemGetargs (nbytes : ℤ) : Kernel :=
  match k.runningTask.args with
  | none => k.ret (-1)
  | some args => if (strlen args : ℤ) ≥ nbytes % 2 ^ 32 then k.ret (-1) else k.ret 0

/-- `TASK_IMG_START`. -/
abbrev taskImgStart : ℤ := 0x08000000
/-- `TASK_IMG_END`. -/
abbrev taskImgEnd : ℤ := 0x08400000

/-- `system_vidmap`. -/
def systemVidmap (screenStart : BitVec 32) : Kernel :=
  if screenStart.toInt < taskImgStart ∨ screenStart.toInt ≥ taskImgEnd then k.ret (-1)
  else
    match k.runningTask.terminal with
    | none => k.ret (-1)
    | some t =>
      { k.modifyTask k.running fun t => { t with vidmapEnabled := true } with
        vidmem := k.vidmem.taskSetUserVidmap (some t) }.ret 0

/-- `system_set_handler`. -/
def systemSetHandler (signum : ℤ) (address : ℕ) : Kernel :=
  let (s, value) := k.runningTask.signals.setHandler signum address
  (k.modifySignals k.running fun _ => s).ret value

/-- `system_sigreturn`: the hardware context comes from the stack of the user. -/
def systemSigreturn (noise : Noise) : Kernel :=
  { k.modifySignals k.running (·.restoreMask) with eax := noise.eax }

/-! ## Steps -/

/-- One function on the kernel stack of the running task is left. -/
def resumeFrame (noise : Noise) (f : Frame) : Except Fault Kernel :=
  match f with
  -- `program_ret` is what EAX holds, and `system_execute` returns it in EAX
  | .executeLaunch _ => .ok k
  | .terminalRead nbytes =>
    k.terminalReadEnd ((k.term k.runningTask.terminal).scan nbytes).1
  | .rtcRead => .ok (k.ret 0)
  | .keyboardTail => .ok k.keyboardTail
  | .mouseTail flags dx dy => .ok (k.mouseTail flags dx dy)
  | .syscallDone => .ok (k.modifyTask k.running fun t => { t with hwEax := k.eax })
  | .signalCheck =>
    -- the saved code segment is `USER_CS` for user tasks only
    if k.runningTask.flags.kernelTask then .ok k else k.signalCheck noise

/-- Entry by `int 0x80`. -/
def enterSystemCall : Kernel := (k.push .signalCheck).push .syscallDone

/-- Entry by an interrupt or an exception. -/
def enterInterrupt : Kernel := k.push .signalCheck

/-- A system call or an exception of a user program. -/
def userStep (img : FsImage) (noise : Noise) : Event → Except Fault Kernel
  | .execute command => .ok (k.enterSystemCall.lowlevelSysExecute img noise command)
  | .halt status => k.enterSystemCall.systemHalt noise status
  | .read fd bufNull nbytes => k.enterSystemCall.systemRead img noise fd bufNull nbytes
  | .write fd bufNull word nbytes => k.enterSystemCall.systemWrite fd bufNull word nbytes
  | .openFile filename => k.enterSystemCall.systemOpen img filename
  | .close fd => .ok (k.enterSystemCall.systemClose fd)
  | .getargs nbytes => .ok (k.enterSystemCall.systemGetargs nbytes)
  | .vidmap screenStart => .ok (k.enterSystemCall.systemVidmap screenStart)
  | .setHandler signum address => .ok (k.enterSystemCall.systemSetHandler signum address)
  | .sigreturn => .ok (k.enterSystemCall.systemSigreturn noise)
  | .exception num =>
    .ok (k.enterInterrupt.signalSend (if num = 0 then signalDivZero else signalSegfault))
  | _ => .error .disabled

/-- **One step of the kernel.** -/
def step (img : FsImage) (l : Label) : Except Fault Kernel :=
  match k.runningTask.kstack, l.event with
  | f :: _, .resume => k.pop.resumeFrame l.noise f
  | _ :: _, _ => .error .disabled
  | [], .resume => .error .disabled
  | [], .pit => k.enterInterrupt.pitInterruptHandler l.noise
  | [], .rtc => k.enterInterrupt.rtcInterruptHandler l.noise
  | [], .keyboard scanCode => k.enterInterrupt.keyboardInterruptHandler l.noise scanCode
  | [], .mouse flags dx dy => k.enterInterrupt.mouseInterruptHandler img l.noise flags dx dy
  | [], .yield => if k.runningTask.flags.initTask then k.schedYield l.noise else .error .disabled
  | [], e => if k.runningTask.flags.kernelTask then .error .disabled else k.userStep img l.noise e

end Kernel

/-! ## Boot -/

/-- A task slot at boot. -/
def Task.unused : Task where
  valid := false
  args := none
  flags := {}
  parent := none
  pageId := 0
  vidmapEnabled := false
  remainTime := 0
  rtc := { targetFreq := 0, counter := 0 }
  terminal := none
  fileArray := { openedFiles := fun _ => .free, currentOpenFileNum := 0 }
  signals := {
    pendingSignal := 0
    maskedSignal := 0
    available := 0
    alarmTime := 0
    currentHandlers := fun _ => .default }
  kstack := []
  hwEax := 0

namespace Kernel

/-- The kernel behind `task_init`, `terminal_init`, `vidmem_init` and `gui_init`. -/
def boot : Kernel where
  running := 0
  eax := 0
  task := fun _ => .unused
  taskCount := 0
  links := { next := id, prev := id }
  terminalFgTask := fun _ => none
  focusTask := none
  term := fun t => { Terminal.unused with valid := t.isNone }
  runningTerm := none
  paging := { pageIdCount := 0, pageIdRunning := fun _ => false, imgEntry := 0 }
  vidmem := {
    terminalOpened := fun _ => false
    vramEntry := setPDE4kB .kernelPageTable0 true false true
    vidmapEntry := clearPDE4kB }
  gui := {
    windowStack := List.replicate guiMaxWindowNum none
    mousePressedOnTitle := false
    termButtonPressed := false
    renderCounter := 0 }
  keyboard := .released
  mouse := { x := 945, y := 30, lastFlags := 0 }

/-- `system_execute` on a kernel task: the file system is not looked at. -/
def executeKernelTask (k : Kernel) (command : List UInt8) (wait : ℤ) : Kernel :=
  match k.systemExecute
      { dirNum := 0, inodeNum := 0, dataBlockNum := 0
        dirEntries := fun _ => { fileName := [], fileType := 0, inodeNum := 0 }
        inodes := fun _ => { lengthInBytes := 0, dataBlockNum := fun _ => 0 }
        dataBlocks := fun _ _ => 0 }
      { eax := 0, stack := fun _ => 0 }
      { command := command, wait := wait, newTerminal := false, kernelTask := true } with
  | .ok k => k
  | .error k => k

/-- **The kernel once it runs**: the init task is executed, and executes the idle task. -/
def start : Kernel :=
  (boot.executeKernelTask [105, 110, 105, 116, 100] 0).executeKernelTask [105, 100, 108, 101] (-1)

end Kernel

/-! ## A small disk -/

/-- A file system image with two programs, `shell` and `cat`. -/
def programs : FsImage where
  dirNum := 2
  inodeNum := 1
  dataBlockNum := 1
  dirEntries := fun i => {
    fileName := if i = 0 then [115, 104, 101, 108, 108] else [99, 97, 116]
    fileType := 2
    inodeNum := 0 }
  inodes := fun _ => { lengthInBytes := 28, dataBlockNum := fun _ => 0 }
  dataBlocks := fun _ o => [0x7F, 0x45, 0x4C, 0x46].getD o 1

/-- The command line `cat`. -/
def catCommand : List UInt8 := [99, 97, 116]

/-- These events on that disk; 7 is left in EAX by whatever ran before a switch. -/
def traceOf (events : List Event) : List Label :=
  events.map fun e => { event := e, noise := { eax := 7, stack := fun _ => 0 } }

/-- The first tick, after which the init task runs. -/
def firstTick : List Event := [.pit, .resume]

/-- A packet of the mouse, and the way back to the program. -/
def mousePacket (flags dx dy : UInt8) : List Event := [.mouse flags dx dy, .resume, .resume]

/-- The mouse goes to the terminal button and presses it, up to the start of the shell. -/
def openShell : List Event := mousePacket 0x18 246 10 ++ mousePacket 0x09 0 0 ++ [.mouse 0x08 0 0]

end AuroraOS
