/-
# The program loader

`task_paging_allocate_and_set` of `task/task_paging.c` with everything it writes: besides the
page id and the page directory (`AuroraOS.Paging`), `*eip` and the program image, which goes
byte by byte through entry 32 of the page directory to the physical page of the new task.
-/
import AuroraOS.FileRead
import AuroraOS.Paging

namespace AuroraOS

/-! ## Memory -/

/-- `TASK_IMG_PAGE_ENTRY`. -/
abbrev taskImgPageEntry : ℕ := 32
/-- `TASK_IMG_LOAD_ADDR`. -/
abbrev taskImgLoadAddr : ℕ := 0x08048000
/-- `TASK_IMG_END`, of `vidmem.c`: the end of the 4MB behind entry 32. -/
abbrev taskImgEnd : ℕ := 0x08400000
/-- The bytes that one entry of the page directory covers. -/
abbrev address4MB : ℕ := 0x400000

/-- Linear memory as the loader sees it: the physical 4MB page behind every value of entry
32 of the page directory, and the addresses outside of that entry. -/
structure UserMemory where
  frame : BitVec 32 → ℕ → UInt8
  rest : ℕ → UInt8

namespace UserMemory

/-- The byte at a linear address when entry 32 is `pde`. -/
def read (m : UserMemory) (pde : BitVec 32) (a : ℕ) : UInt8 :=
  if a / address4MB = taskImgPageEntry then m.frame pde (a % address4MB) else m.rest a

/-- A store to a linear address when entry 32 is `pde`. -/
def write (m : UserMemory) (pde : BitVec 32) (a : ℕ) (c : UInt8) : UserMemory :=
  if a / address4MB = taskImgPageEntry then
    { m with
      frame := Function.update m.frame pde (Function.update (m.frame pde) (a % address4MB) c) }
  else { m with rest := Function.update m.rest a c }

/-- The stores of `read_data` to a buffer at `a`. -/
def writeAll (pde : BitVec 32) : ℕ → List UInt8 → UserMemory → UserMemory
  | _, [], m => m
  | a, c :: cs, m => writeAll pde (a + 1) cs (m.write pde a c)

variable {m : UserMemory} {pde : BitVec 32}

theorem read_write (m : UserMemory) (pde : BitVec 32) (a b : ℕ) (c : UInt8) :
    (m.write pde a c).read pde b = if b = a then c else m.read pde b := by
  by_cases hab : b = a
  · subst hab
    rw [if_pos rfl, write, read]
    split_ifs with hpage
    · simp
    · simp
  · rw [if_neg hab, write]
    split_ifs with hpage
    · by_cases hb : b / address4MB = taskImgPageEntry
      · have hmod : b % address4MB ≠ a % address4MB := by
          simp only [address4MB, taskImgPageEntry] at *
          omega
        rw [read, read, if_pos hb, if_pos hb]
        show Function.update m.frame pde _ pde (b % address4MB) = _
        rw [Function.update_self, Function.update_of_ne hmod]
      · rw [read, read, if_neg hb, if_neg hb]
    · by_cases hb : b / address4MB = taskImgPageEntry
      · rw [read, read, if_pos hb, if_pos hb]
      · rw [read, read, if_neg hb, if_neg hb]
        exact Function.update_of_ne hab _ _

/-- The stores put the bytes side by side and touch nothing else. -/
theorem read_writeAll (pde : BitVec 32) (b : ℕ) (cs : List UInt8) : ∀ (m : UserMemory) (a : ℕ),
    (writeAll pde a cs m).read pde b =
      if a ≤ b ∧ b < a + cs.length then cs.getD (b - a) 0 else m.read pde b := by
  induction cs with
  | nil =>
    intro m a
    rw [if_neg (by simp), writeAll]
  | cons c cs ih =>
    intro m a
    rw [writeAll, ih, read_write, List.length_cons]
    by_cases hba : b = a
    · subst hba
      rw [if_neg (by omega), if_pos rfl, if_pos (by omega), Nat.sub_self]
      rfl
    · rw [if_neg hba]
      by_cases hin : a + 1 ≤ b ∧ b < a + 1 + cs.length
      · rw [if_pos hin, if_pos (by omega)]
        have hsub : b - a = (b - (a + 1)) + 1 := by omega
        rw [hsub]
        rfl
      · rw [if_neg hin, if_neg (by omega)]

/-- The pages of other tasks are untouched. -/
theorem frame_writeAll (cs : List UInt8) {e : BitVec 32} (he : e ≠ pde) :
    ∀ (m : UserMemory) (a : ℕ), (writeAll pde a cs m).frame e = m.frame e := by
  induction cs with
  | nil =>
    intro m a
    rfl
  | cons c cs ih =>
    intro m a
    rw [writeAll, ih, write]
    split_ifs
    · exact Function.update_of_ne he _ _
    · rfl

end UserMemory

/-! ## Loading -/

/-- `get_file_size`. -/
def FsImage.getFileSize (img : FsImage) (inode : ℕ) : ℤ :=
  if img.inodeNum ≤ inode then -1 else (img.inodes inode).lengthInBytes

/-- The state of the loader: the paging variables, `*eip`, memory, and the linear addresses
that have been written by it. -/
structure Loader where
  paging : Paging
  eip : BitVec 32
  memory : UserMemory
  written : List ℕ

namespace Loader

/-- `task_load`. -/
def taskLoad (s : Loader) (img : FsImage) (task : Dentry) : Loader :=
  let fileSize := img.getFileSize task.inodeNum
  let bytes := (img.readData task.inodeNum 0 (fileSize % 2 ^ 32).toNat).getD []
  { s with
    memory := s.memory.writeAll s.paging.imgEntry taskImgLoadAddr bytes
    written := s.written ++ (List.range bytes.length).map (taskImgLoadAddr + ·) }

/-- `task_paging_allocate_and_set`; `stack` is what lies in the buffer of
`task_is_executable` before. -/
def taskPagingAllocateAndSet (s : Loader) (img : FsImage) (taskName : List UInt8)
    (stack : ℕ → UInt8) : Loader × ℤ :=
  match img.readDentryByName taskName with
  | none => (s, -1)
  | some task =>
    if !img.taskIsExecutable task stack then (s, -1)
    else
      match s.paging.taskGetFreePageId with
      | none => (s, -1)
      | some pageId =>
        if img.taskGetEip task = -1 then (s, -2)
        else
          let s := { s with
            eip := img.taskGetEip task
            paging := s.paging.taskSetImgPaging pageId.val }
          let s := s.taskLoad img task
          ({ s with
              paging := { s.paging with
                pageIdRunning := Function.update s.paging.pageIdRunning pageId true
                pageIdCount := s.paging.pageIdCount + 1 } }, pageId.val)

/-- The paging variables and the result are those of the kernel model. -/
theorem taskPagingAllocateAndSet_paging (s : Loader) (img : FsImage) (taskName : List UInt8)
    (stack : ℕ → UInt8) :
    (s.taskPagingAllocateAndSet img taskName stack).1.paging =
        (s.paging.taskPagingAllocateAndSet img taskName stack).1 ∧
      (s.taskPagingAllocateAndSet img taskName stack).2 =
        (s.paging.taskPagingAllocateAndSet img taskName stack).2 := by
  unfold taskPagingAllocateAndSet Paging.taskPagingAllocateAndSet
  generalize img.readDentryByName taskName = entry
  rcases entry with _ | task
  · exact ⟨rfl, rfl⟩
  generalize s.paging.taskGetFreePageId = free
  by_cases hexec : !img.taskIsExecutable task stack
  · simp only [if_pos hexec, and_self]
  rcases free with _ | pageId
  · simp only [if_neg hexec, and_self]
  by_cases heip : img.taskGetEip task = -1
  · simp only [if_neg hexec, if_pos heip, and_self]
  · simp only [if_neg hexec, if_neg heip, and_true]
    rfl

end Loader

/-! ## Programs -/

namespace FsImage

variable (img : FsImage)

/-- The little-endian word at byte 24 of a file. -/
def entryPoint (inode : ℕ) : BitVec 32 :=
  BitVec.ofNat 32 ((img.byteAt inode 24).toNat + (img.byteAt inode 25).toNat * 2 ^ 8 +
    (img.byteAt inode 26).toNat * 2 ^ 16 + (img.byteAt inode 27).toNat * 2 ^ 24)

/-- The file of an inode has the magic number and all of the word at byte 24. -/
structure Executable (inode : ℕ) : Prop where
  inode_lt : inode < img.inodeNum
  length : 28 ≤ (img.inodes inode).lengthInBytes
  magic : (img.contents inode).take 4 = [0x7F, 0x45, 0x4C, 0x46]

variable {img}

/-- The first bytes of the file from an offset on. -/
theorem take_drop_contents {inode offset : ℕ}
    (h : offset + 4 ≤ (img.inodes inode).lengthInBytes) :
    ((img.contents inode).drop offset).take 4 = [img.byteAt inode offset,
      img.byteAt inode (offset + 1), img.byteAt inode (offset + 2),
      img.byteAt inode (offset + 3)] := by
  rw [drop_contents img (by omega), drop_contents img (by omega), drop_contents img (by omega),
    drop_contents img (by omega)]
  rfl

theorem readData_four (h : img.WellFormed) {inode offset : ℕ} (hin : inode < img.inodeNum)
    (hlen : offset + 4 ≤ (img.inodes inode).lengthInBytes) :
    img.readData inode offset 4 = some [img.byteAt inode offset, img.byteAt inode (offset + 1),
      img.byteAt inode (offset + 2), img.byteAt inode (offset + 3)] := by
  rw [readData_eq h hin (block_lt h hin (by omega) (by omega)), take_drop_contents hlen]

theorem taskGetEip_eq (h : img.WellFormed) {task : Dentry} (hin : task.inodeNum < img.inodeNum)
    (hlen : 28 ≤ (img.inodes task.inodeNum).lengthInBytes) :
    img.taskGetEip task = img.entryPoint task.inodeNum := by
  rw [taskGetEip, readData_four h hin hlen]
  rfl

/-- `task_get_eip` fails when `read_data` does not deliver 4 bytes. -/
theorem taskGetEip_of_length {task : Dentry} {bytes : List UInt8}
    (hread : img.readData task.inodeNum 24 4 = some bytes) (hlen : bytes.length < 4) :
    img.taskGetEip task = -1 := by
  rw [taskGetEip, hread]
  rcases bytes with _ | ⟨b0, _ | ⟨b1, _ | ⟨b2, _ | ⟨b3, bytes⟩⟩⟩⟩
  · rfl
  · rfl
  · rfl
  · rfl
  · simp only [List.length_cons] at hlen
    omega

/-- A file that ends in front of byte 28 has no EIP. -/
theorem taskGetEip_short (h : img.WellFormed) {task : Dentry}
    (hshort : ¬(task.inodeNum < img.inodeNum ∧ 28 ≤ (img.inodes task.inodeNum).lengthInBytes)) :
    img.taskGetEip task = -1 := by
  by_cases hin : task.inodeNum < img.inodeNum
  · by_cases hnum : (img.inodes task.inodeNum).dataBlockNum (24 / fileBlockSize) < img.dataBlockNum
    · apply taskGetEip_of_length (readData_eq h hin hnum 4)
      rw [List.length_take, List.length_drop, length_contents]
      omega
    · have hread : img.readData task.inodeNum 24 4 = none := by
        rw [readData, if_neg (Nat.not_le.mpr hin)]
        exact if_pos (Nat.not_lt.mp hnum)
      rw [taskGetEip, hread]
  · have hread : img.readData task.inodeNum 24 4 = none := if_pos (Nat.not_lt.mp hin)
    rw [taskGetEip, hread]

theorem taskIsExecutable_iff (h : img.WellFormed) {task : Dentry} (stack : ℕ → UInt8)
    (hin : task.inodeNum < img.inodeNum)
    (hlen : 28 ≤ (img.inodes task.inodeNum).lengthInBytes) :
    img.taskIsExecutable task stack = true ↔
      (img.contents task.inodeNum).take 4 = [0x7F, 0x45, 0x4C, 0x46] := by
  have hfour : 0 + 4 ≤ (img.inodes task.inodeNum).lengthInBytes := by omega
  have htake := take_drop_contents hfour
  rw [List.drop_zero] at htake
  rw [taskIsExecutable, readData_four h hin (by omega), htake]
  simp [and_assoc]

/-- The file as `task_load` reads it. -/
theorem readData_all (h : img.WellFormed) {inode : ℕ} (hin : inode < img.inodeNum)
    (hpos : 0 < (img.inodes inode).lengthInBytes) :
    img.readData inode 0 (img.getFileSize inode % 2 ^ 32).toNat = some (img.contents inode) := by
  have hlarge := h.length inode hin
  simp only [inodeBlocks, fileBlockSize] at hlarge
  have hsize : (img.getFileSize inode % 2 ^ 32).toNat = (img.inodes inode).lengthInBytes := by
    rw [getFileSize, if_neg (Nat.not_le.mpr hin)]
    omega
  rw [hsize, readData_eq h hin (block_lt h hin (by omega) (by omega)), List.drop_zero,
    List.take_of_length_le (by rw [length_contents])]

end FsImage

namespace Loader

variable {img : FsImage} {s : Loader} {taskName : List UInt8} {stack : ℕ → UInt8}

/-- What loading the file `inode` into page `pageId` makes of the state. -/
def loaded (s : Loader) (img : FsImage) (inode : ℕ) (pageId : Fin 10) : Loader :=
  let pde := (s.paging.taskSetImgPaging pageId.val).imgEntry
  { paging :=
      { s.paging.taskSetImgPaging pageId.val with
        pageIdRunning := Function.update s.paging.pageIdRunning pageId true
        pageIdCount := s.paging.pageIdCount + 1 }
    eip := img.entryPoint inode
    memory := s.memory.writeAll pde taskImgLoadAddr (img.contents inode)
    written := s.written ++
      (List.range (img.inodes inode).lengthInBytes).map (taskImgLoadAddr + ·) }

/-- The name is that of an entry whose file the loader takes for a program. -/
def Accepts (img : FsImage) (taskName : List UInt8) (task : Dentry) : Prop :=
  img.readDentryByName taskName = some task ∧ img.Executable task.inodeNum ∧
    img.entryPoint task.inodeNum ≠ -1

/-- **When the loader takes a file**: it needs a page id, and does not ask for the type of
the entry nor for the length of the file. -/
theorem taskPagingAllocateAndSet_accepts (h : img.WellFormed) {task : Dentry} {pageId : Fin 10}
    (ht : Accepts img taskName task) (hfree : s.paging.taskGetFreePageId = some pageId) :
    s.taskPagingAllocateAndSet img taskName stack =
      (s.loaded img task.inodeNum pageId, (pageId.val : ℤ)) := by
  obtain ⟨hname, ⟨hin, hlen, hmagic⟩, heip⟩ := ht
  have hexec := (FsImage.taskIsExecutable_iff h stack hin hlen).mpr hmagic
  have hread := FsImage.readData_all h hin (by omega)
  have heq := FsImage.taskGetEip_eq h hin hlen
  rw [taskPagingAllocateAndSet, hname]
  simp only [hexec, Bool.not_true, Bool.false_eq_true, if_false, hfree]
  rw [heq, if_neg heip, taskLoad, hread]
  simp only [Option.getD_some, FsImage.length_contents]
  rfl

/-- In every other case the result is negative and nothing has changed. -/
theorem taskPagingAllocateAndSet_rejects (h : img.WellFormed)
    (hno : ∀ task, Accepts img taskName task → s.paging.taskGetFreePageId = none) :
    (s.taskPagingAllocateAndSet img taskName stack).1 = s ∧
      (s.taskPagingAllocateAndSet img taskName stack).2 < 0 := by
  have hneg : (-1 : ℤ) < 0 := by norm_num
  unfold taskPagingAllocateAndSet
  generalize hname : img.readDentryByName taskName = entry
  rcases entry with _ | task
  · exact ⟨rfl, hneg⟩
  by_cases hexec : img.taskIsExecutable task stack = true
  · simp only [hexec, Bool.not_true, Bool.false_eq_true, if_false]
    generalize hfree : s.paging.taskGetFreePageId = free
    rcases free with _ | pageId
    · exact ⟨rfl, hneg⟩
    by_cases heip : img.taskGetEip task = -1
    · simp only [if_pos heip]
      exact ⟨trivial, by norm_num⟩
    · exfalso
      by_cases hfile : task.inodeNum < img.inodeNum ∧
          28 ≤ (img.inodes task.inodeNum).lengthInBytes
      · obtain ⟨hin, hlen⟩ := hfile
        have hmagic := (FsImage.taskIsExecutable_iff h stack hin hlen).mp hexec
        rw [FsImage.taskGetEip_eq h hin hlen] at heip
        rw [hno task ⟨hname, ⟨hin, hlen, hmagic⟩, heip⟩] at hfree
        cases hfree
      · exact heip (FsImage.taskGetEip_short h hfile)
  · simp only [hexec, Bool.not_false, if_true]
    exact ⟨trivial, by norm_num⟩

/-! ## The contract -/

/-- The loader's contract on one call, from the state `s` to the state and the result `r`:
it takes a page id only for a regular file that is a program, writes this file and nothing
outside of the program's part of memory, and changes nothing when it fails. -/
structure Contract (img : FsImage) (taskName : List UInt8) (s : Loader) (r : Loader × ℤ) :
    Prop where
  accepted : 0 ≤ r.2 → ∃ (task : Dentry) (pageId : Fin 10),
    img.readDentryByName taskName = some task ∧ task.fileType = 2 ∧
    img.Executable task.inodeNum ∧
    r.2 = pageId.val ∧ s.paging.pageIdRunning pageId = false ∧
    r.1.paging.pageIdRunning = Function.update s.paging.pageIdRunning pageId true ∧
    r.1.eip = img.entryPoint task.inodeNum ∧
    (∀ i < (img.inodes task.inodeNum).lengthInBytes,
      r.1.memory.read r.1.paging.imgEntry (taskImgLoadAddr + i) = img.byteAt task.inodeNum i) ∧
    (∀ a ∈ r.1.written, taskImgLoadAddr ≤ a ∧ a < taskImgEnd) ∧
    (∀ a, ¬(taskImgLoadAddr ≤ a ∧ a < taskImgEnd) →
      r.1.memory.read r.1.paging.imgEntry a = s.memory.read r.1.paging.imgEntry a) ∧
    ∀ pde, pde ≠ r.1.paging.imgEntry → r.1.memory.frame pde = s.memory.frame pde
  rejected : r.2 < 0 →
    r.1.paging.imgEntry = s.paging.imgEntry ∧ r.1.paging.pageIdRunning = s.paging.pageIdRunning

/-- The bytes of the file are in memory. -/
theorem read_loaded (s : Loader) (img : FsImage) (inode : ℕ) (pageId : Fin 10) (a : ℕ) :
    (s.loaded img inode pageId).memory.read (s.loaded img inode pageId).paging.imgEntry a =
      if taskImgLoadAddr ≤ a ∧ a < taskImgLoadAddr + (img.inodes inode).lengthInBytes then
        img.byteAt inode (a - taskImgLoadAddr)
      else s.memory.read (s.loaded img inode pageId).paging.imgEntry a := by
  have hread := UserMemory.read_writeAll (s.loaded img inode pageId).paging.imgEntry a
    (img.contents inode) s.memory taskImgLoadAddr
  rw [FsImage.length_contents] at hread
  refine Eq.trans hread ?_
  by_cases hin : taskImgLoadAddr ≤ a ∧ a < taskImgLoadAddr + (img.inodes inode).lengthInBytes
  · rw [if_pos hin, if_pos hin, FsImage.contents, List.getD_eq_getElem?_getD, List.getElem?_map,
      List.getElem?_range (by omega)]
    rfl
  · rw [if_neg hin, if_neg hin]

theorem taskGetFreePageId_spec {p : Paging} {pageId : Fin 10}
    (h : p.taskGetFreePageId = some pageId) : p.pageIdRunning pageId = false := by
  have hfound := List.find?_some h
  simpa using hfound

/-- A file that fits is loaded as the contract says. -/
theorem contract_loaded (hs : s.written = []) {task : Dentry} {pageId : Fin 10}
    (ht : Accepts img taskName task) (hfree : s.paging.taskGetFreePageId = some pageId)
    (htype : task.fileType = 2)
    (hfits : taskImgLoadAddr + (img.inodes task.inodeNum).lengthInBytes ≤ taskImgEnd) :
    Contract img taskName s (s.loaded img task.inodeNum pageId, (pageId.val : ℤ)) where
  accepted _ := by
    refine ⟨task, pageId, ht.1, htype, ht.2.1, rfl, taskGetFreePageId_spec hfree, rfl, rfl, ?_, ?_,
      ?_, ?_⟩
    · intro i hi
      rw [read_loaded, if_pos (by omega), Nat.add_sub_cancel_left]
    · intro a ha
      have hwritten : (s.loaded img task.inodeNum pageId).written =
          (List.range (img.inodes task.inodeNum).lengthInBytes).map (taskImgLoadAddr + ·) := by
        rw [loaded, hs, List.nil_append]
      rw [hwritten, List.mem_map] at ha
      obtain ⟨i, hi, rfl⟩ := ha
      rw [List.mem_range] at hi
      omega
    · intro a ha
      rw [read_loaded, if_neg (by omega)]
    · intro pde hpde
      exact UserMemory.frame_writeAll _ hpde _ _
  rejected hneg := absurd hneg (by simp)

/-- **The loader keeps its contract** exactly when the program it would load is a regular
file that fits between the load address and the end of the 4MB page. -/
theorem loader_iff (h : img.WellFormed) (hs : s.written = []) :
    Contract img taskName s (s.taskPagingAllocateAndSet img taskName stack) ↔
      ∀ task, Accepts img taskName task → s.paging.taskGetFreePageId ≠ none →
        task.fileType = 2 ∧
        taskImgLoadAddr + (img.inodes task.inodeNum).lengthInBytes ≤ taskImgEnd := by
  constructor
  · intro hc task ht hne
    obtain ⟨pageId, hfree⟩ := Option.ne_none_iff_exists'.mp hne
    rw [taskPagingAllocateAndSet_accepts h ht hfree] at hc
    obtain ⟨task', pageId', hname, htype, hexec, -, -, -, -, -, hwritten, -⟩ :=
      hc.accepted (by simp)
    obtain rfl := Option.some.inj (ht.1.symm.trans hname)
    refine ⟨htype, ?_⟩
    -- the last byte of the file is written in front of the end
    have hpos := hexec.length
    have hlast := hwritten (taskImgLoadAddr + ((img.inodes task.inodeNum).lengthInBytes - 1)) (by
      apply List.mem_append_right
      apply List.mem_map_of_mem
      rw [List.mem_range]
      omega)
    omega
  · intro hfits
    by_cases hacc : ∃ task, Accepts img taskName task ∧ s.paging.taskGetFreePageId ≠ none
    · obtain ⟨task, ht, hne⟩ := hacc
      obtain ⟨pageId, hfree⟩ := Option.ne_none_iff_exists'.mp hne
      obtain ⟨htype, hlen⟩ := hfits task ht hne
      rw [taskPagingAllocateAndSet_accepts h ht hfree]
      exact contract_loaded hs ht hfree htype hlen
    · have hreject : (s.taskPagingAllocateAndSet img taskName stack).1 = s ∧
          (s.taskPagingAllocateAndSet img taskName stack).2 < 0 :=
        taskPagingAllocateAndSet_rejects h fun task ht => by
          by_contra hne
          exact hacc ⟨task, ht, hne⟩
      obtain ⟨hsame, hneg⟩ := hreject
      refine ⟨fun hpos => absurd hneg (not_lt.mpr hpos), fun _ => ?_⟩
      rw [hsame]
      exact ⟨rfl, rfl⟩

/-- An image with one entry, `"a"`, whose inode has a program of 28 bytes. -/
def programImage (fileType : ℕ) : FsImage where
  dirNum := 1
  inodeNum := 1
  dataBlockNum := 1
  dirEntries := fun _ => { fileName := [97], fileType := fileType, inodeNum := 0 }
  inodes := fun _ => { lengthInBytes := 28, dataBlockNum := fun _ => 0 }
  dataBlocks := fun _ i => [0x7F, 0x45, 0x4C, 0x46].getD i 0

/-- A loader with no page id in use. -/
def idle : Loader where
  paging := { pageIdCount := 0, pageIdRunning := fun _ => false, imgEntry := 0 }
  eip := 0
  memory := { frame := fun _ _ => 0, rest := fun _ => 0 }
  written := []

theorem programImage_wellFormed (fileType : ℕ) : (programImage fileType).WellFormed where
  dirNum := by simp [programImage]
  regular := by simp [programImage]
  length := by simp [programImage, inodeBlocks, fileBlockSize]
  block := by simp [programImage]

/-- The contract for a regular file. -/
theorem loader_iff_program :
    Contract (programImage 2) [97] idle
        (idle.taskPagingAllocateAndSet (programImage 2) [97] fun _ => 0) ↔
      ∀ task, Accepts (programImage 2) [97] task → idle.paging.taskGetFreePageId ≠ none →
        task.fileType = 2 ∧ taskImgLoadAddr +
          ((programImage 2).inodes task.inodeNum).lengthInBytes ≤ taskImgEnd :=
  loader_iff (programImage_wellFormed 2) rfl

/-- **A directory is loaded as a program** when the file of inode 0 is one. -/
theorem directory_is_loaded :
    (programImage 1).WellFormed ∧
      ¬Contract (programImage 1) [97] idle
        (idle.taskPagingAllocateAndSet (programImage 1) [97] fun _ => 0) := by
  refine ⟨programImage_wellFormed 1, fun hc => ?_⟩
  have hret : (idle.taskPagingAllocateAndSet (programImage 1) [97] fun _ => 0).2 = 0 := by
    decide +kernel
  have hname : (programImage 1).readDentryByName [97] = some ⟨[97], 1, 0⟩ := by decide +kernel
  obtain ⟨task, pageId, hname', htype, -⟩ := hc.accepted hret.ge
  obtain rfl := Option.some.inj (hname.symm.trans hname')
  exact absurd htype (by decide)

end Loader

end AuroraOS
