/-
# Task lists and the switch of tasks

The splicing primitives of `task/task.c`, `task/task_sched.c` without the PIT
handler, and `terminal_set_running`.

A switch is the change of `running`: what the old task still has to do lies on its
kernel stack, and what the new one has to do is on top of its own.
-/
import AuroraOS.Paging

namespace AuroraOS

open Ring

/-- `SCHED_PIT_INTERVAL`. -/
abbrev schedPitInterval : ℤ := 10
/-- `SCHED_TASK_TIME`. -/
abbrev schedTaskTime : ℤ := 50

namespace Kernel

variable (k : Kernel)

/-! ## Lists -/

/-- `move_task_to_list_unsafe`. -/
def moveTaskToList (x : TaskId) (newPrev newNext : ListNode) : Kernel :=
  { k with links := k.links.move (.item x) newPrev newNext }

/-- `move_task_after_node_unsafe`. -/
def moveTaskAfterNode (x : TaskId) (node : ListNode) : Kernel :=
  k.moveTaskToList x node (k.links.next node)

/-- `sched_move_running_after_node_unsafe`. -/
def schedMoveRunningAfterNode (node : ListNode) : Kernel := k.moveTaskAfterNode k.running node

/-- `sched_insert_to_head_unsafe`. -/
def schedInsertToHead (x : TaskId) : Kernel := k.moveTaskAfterNode x (.head .runQueue)

/-- `sched_refill_time`. -/
def schedRefillTime (x : TaskId) : Kernel :=
  k.modifyTask x fun t => { t with remainTime := schedTaskTime }

/-- `sched_move_running_to_last`. -/
def schedMoveRunningToLast : Kernel :=
  if k.links.prev (.head .runQueue) ≠ .item k.running then
    k.moveTaskAfterNode k.running (k.links.prev (.head .runQueue))
  else k

/-! ## Frames -/

/-- Leave a kernel function on the stack of the running task. -/
def push (f : Frame) : Kernel :=
  k.modifyTask k.running fun t => { t with kstack := f :: t.kstack }

/-- Leave the topmost function of the running task. -/
def pop : Kernel := k.modifyTask k.running fun t => { t with kstack := t.kstack.tail }

/-! ## Switching -/

/-- `terminal_set_running`. -/
def terminalSetRunning (t : Option TermId) : Kernel :=
  if k.runningTerm = t then k
  else { k with vidmem := k.vidmem.terminalVidmemSet t, runningTerm := t }

/-- `task_apply_user_vidmap`. -/
def taskApplyUserVidmap (x : TaskId) : Kernel :=
  if (k.task x).vidmapEnabled then
    match (k.task x).terminal with
    | none => k
    | some t => { k with vidmem := k.vidmem.taskSetUserVidmap (some t) }
  else { k with vidmem := k.vidmem.taskSetUserVidmap none }

/-- `task_paging_set`, if the task has a page. -/
def setTaskPage (x : TaskId) : Except Fault Kernel :=
  if (k.task x).pageId ≠ -1 then do
    let paging ← k.paging.taskPagingSet (k.task x).pageId
    .ok { k with paging := paging }
  else .ok k

/-- The jump to another kernel stack, with what EAX holds on arrival. -/
def switchTo (x : TaskId) (eax : BitVec 32) : Except Fault Kernel :=
  if (k.task x).valid then .ok { k with running := x, eax := eax } else .error .freedTask

/-- The task of a node; a sentinel is inside no task. -/
def taskFromNode : ListNode → Except Fault TaskId
  | .item x => .ok x
  | .head _ => .error .badNode

/-- `sched_launch_to_current_head` behind the choice of `to_run`. -/
def launchTo (toRun : TaskId) (noise : Noise) : Except Fault Kernel :=
  if k.running = toRun then .ok k
  else do
    let k := k.terminalSetRunning (k.task toRun).terminal
    let k ← k.setTaskPage toRun
    let k := k.taskApplyUserVidmap toRun
    k.switchTo toRun noise.eax

/-- `sched_launch_to_current_head`. -/
def schedLaunchToCurrentHead (noise : Noise) : Except Fault Kernel :=
  if k.links.next (.head .runQueue) = .head .runQueue then .ok k
  else do
    let toRun ← taskFromNode (k.links.next (.head .runQueue))
    if (k.task toRun).flags.idleTask ∧ k.links.next (.item toRun) ≠ .head .runQueue then
      let k := k.moveTaskAfterNode toRun (k.links.prev (.head .runQueue))
      let toRun ← taskFromNode (k.links.next (.head .runQueue))
      k.launchTo toRun noise
    else k.launchTo toRun noise

/-- `sched_yield_unsafe`. -/
def schedYield (noise : Noise) : Except Fault Kernel :=
  let k := if k.runningTask.flags.idleTask then k else k.schedRefillTime k.running
  k.schedMoveRunningToLast.schedLaunchToCurrentHead noise

end Kernel

end AuroraOS
