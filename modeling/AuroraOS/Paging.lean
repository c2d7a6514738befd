/-
# Paging and video memory

`task/task_paging.c` and `vidmem.c`: the page ids of user tasks, entry 32 of the page
directory (128-132MB, the program image), and entries 0 and 33 (video memory of the
running terminal, and the user's mapping of it at 132-136MB).
-/
import AuroraOS.FileSystem

namespace AuroraOS

/-- `TASK_MAX_COUNT`. -/
abbrev taskMaxCount : ℕ := 10
/-- `KERNEL_PAGE_OFFSET`. -/
abbrev kernelPageOffset : ℤ := 5
/-- `TASK_IMG_PAGE_FLAG`. -/
abbrev taskImgPageFlag : BitVec 32 := 0x87

/-! ## Loading a program -/

namespace FsImage

variable (img : FsImage)

/-- `task_is_executable`; `stack` is what lies in the buffer before. -/
def taskIsExecutable (task : Dentry) (stack : ℕ → UInt8) : Bool :=
  let read := (img.readData task.inodeNum 0 4).getD []
  let buf := fun i => read.getD i (stack i)
  buf 0 == 0x7F && buf 1 == 0x45 && buf 2 == 0x4C && buf 3 == 0x46

/-- `task_get_eip`: the little-endian word at byte 24, or -1. -/
def taskGetEip (task : Dentry) : BitVec 32 :=
  match img.readData task.inodeNum 24 4 with
  | some [b0, b1, b2, b3] =>
    BitVec.ofNat 32 (b0.toNat + b1.toNat * 2 ^ 8 + b2.toNat * 2 ^ 16 + b3.toNat * 2 ^ 24)
  | _ => -1

end FsImage

/-! ## Page ids -/

namespace Paging

variable (p : Paging)

/-- `task_set_img_paging`. -/
def taskSetImgPaging (pageId : ℤ) : Paging :=
  { p with imgEntry :=
    (BitVec.ofInt 32 (pageId + 2 + kernelPageOffset + 1) <<< 22) ||| taskImgPageFlag }

/-- `task_get_free_page_id`; `none` is -1. -/
def taskGetFreePageId : Option (Fin 10) := (List.finRange 10).find? fun i => !p.pageIdRunning i

/-- `task_paging_allocate_and_set`: a page id, or a negative number. -/
def taskPagingAllocateAndSet (img : FsImage) (taskName : List UInt8) (stack : ℕ → UInt8) :
    Paging × ℤ :=
  match img.readDentryByName taskName with
  | none => (p, -1)
  | some task =>
    if !img.taskIsExecutable task stack then (p, -1)
    else
      match p.taskGetFreePageId with
      | none => (p, -1)
      | some pageId =>
        if img.taskGetEip task = -1 then (p, -2)
        else
          ({ p.taskSetImgPaging pageId.val with
              pageIdRunning := Function.update p.pageIdRunning pageId true
              pageIdCount := p.pageIdCount + 1 }, pageId.val)

/-- `page_id_running[page_id]`. -/
def running (pageId : ℤ) : Except Fault (Fin 10) :=
  if h : 0 ≤ pageId ∧ pageId < 10 then .ok ⟨pageId.toNat, by omega⟩ else .error .pageIdBounds

/-- `task_paging_deallocate`. -/
def taskPagingDeallocate (pageId : ℤ) : Except Fault Paging :=
  if (taskMaxCount : ℤ) ≤ pageId then .ok p
  else do
    let i ← Paging.running pageId
    .ok (if !p.pageIdRunning i then p
      else { p with
        pageIdRunning := Function.update p.pageIdRunning i false
        pageIdCount := p.pageIdCount - 1 })

/-- `task_paging_set`.  The check lets the page id 10 through. -/
def taskPagingSet (pageId : ℤ) : Except Fault Paging :=
  if pageId < 0 ∨ pageId > taskMaxCount then .ok p
  else do
    let i ← Paging.running pageId
    .ok (if !p.pageIdRunning i then p else p.taskSetImgPaging pageId)

end Paging

/-! ## Video memory -/

/-- `set_PDE_4kB`; the page tables are aligned. -/
def setPDE4kB (pt : PageTable) (canWrite user present : Bool) : Pde4kB where
  baseAddress := some pt
  canWrite := canWrite
  userOrSuper := user
  present := present

/-- `clear_PDE_4kB`. -/
def clearPDE4kB : Pde4kB where
  baseAddress := none
  canWrite := false
  userOrSuper := false
  present := false

namespace Vidmem

variable (v : Vidmem)

/-- `terminal_vidmem_open`. -/
def terminalVidmemOpen (t : TermId) : Vidmem :=
  { v with terminalOpened := Function.update v.terminalOpened t true }

/-- `terminal_vidmem_close`; `terminal_active` is `NULL_TERMINAL_ID` for good. -/
def terminalVidmemClose (t : TermId) : Vidmem :=
  { v with terminalOpened := Function.update v.terminalOpened t false }

/-- `terminal_vidmem_set`. -/
def terminalVidmemSet (t : Option TermId) : Vidmem :=
  match t with
  | none => { v with vramEntry := setPDE4kB .kernelPageTable0 true false true }
  | some i =>
    if v.terminalOpened i then
      { v with vramEntry := setPDE4kB (.kernelVideoMemory i) true false true }
    else v

/-- `task_set_user_vidmap`. -/
def taskSetUserVidmap (t : Option TermId) : Vidmem :=
  match t with
  | none => { v with vidmapEntry := clearPDE4kB }
  | some i => { v with vidmapEntry := setPDE4kB (.userVideoMemory i) true true true }

end Vidmem

end AuroraOS
