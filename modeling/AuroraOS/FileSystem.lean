/-
# The file system

`file_system.c`: the image that is loaded as a module, `read_data` on it, and the
system calls on the descriptors of a task.

The image is read through three arrays.  An index past the end of the block table of
an inode is a word further on in the module; `dataBlockNum` is total for this reason.
-/
import AuroraOS.Rtc

namespace AuroraOS

/-! ## Strings -/

/-- The byte `s[i]` of a string; a list stands for its bytes and a final NUL. -/
def charAt (s : List UInt8) (i : ℕ) : UInt8 := s.getD i 0

/-- `strlen`. -/
def strlen (s : List UInt8) : ℕ := (s.takeWhile (· ≠ 0)).length

/-- The loop of `strncmp`, with `n` characters left from index `i` on. -/
def strncmpLoop (s1 s2 : List UInt8) : ℕ → ℕ → ℤ
  | 0, _ => 0
  | n + 1, i =>
    if charAt s1 i ≠ charAt s2 i ∨ charAt s1 i = 0 then
      (charAt s1 i).toInt8.toInt - (charAt s2 i).toInt8.toInt
    else strncmpLoop s1 s2 n (i + 1)

/-- `strncmp`. -/
def strncmp (s1 s2 : List UInt8) (n : ℕ) : ℤ := strncmpLoop s1 s2 n 0

/-- `strncpy`: the bytes written to the destination. -/
def strncpy (src : List UInt8) (n : ℕ) : List UInt8 :=
  let copied := (src.takeWhile (· ≠ 0)).take n
  copied ++ List.replicate (n - copied.length) 0

/-! ## The image -/

/-- `MAX_OPEN_FILE`. -/
abbrev maxOpenFile : ℕ := 8
/-- `FILE_NAME_LENGTH`. -/
abbrev fileNameLength : ℕ := 32
/-- `FILE_BLOCK_SIZE_IN_BYTES`. -/
abbrev fileBlockSize : ℕ := 4096
/-- The number of entries of `inode_t.data_block_num`. -/
abbrev inodeBlocks : ℕ := 1023

/-- `dentry_t`. -/
structure Dentry where
  fileName : List UInt8
  fileType : ℕ
  inodeNum : ℕ
  deriving DecidableEq

/-- `inode_t`, with the words that follow it in the module. -/
structure Inode where
  lengthInBytes : ℕ
  dataBlockNum : ℕ → ℕ

/-- The module: `boot_block`, `inodes` and `data_blocks`. -/
structure FsImage where
  dirNum : ℕ
  inodeNum : ℕ
  dataBlockNum : ℕ
  dirEntries : ℕ → Dentry
  inodes : ℕ → Inode
  dataBlocks : ℕ → ℕ → UInt8

namespace FsImage

variable (img : FsImage)

/-- `read_dentry_by_name`; `none` is -1. -/
def readDentryByName (fname : List UInt8) : Option Dentry :=
  if strlen fname > fileNameLength then none
  else
    ((List.range img.dirNum).find? fun i =>
      strncmp fname (img.dirEntries i).fileName fileNameLength = 0).map img.dirEntries

/-- `read_dentry_by_index`: the value returned, and `*dentry` afterwards. -/
def readDentryByIndex (index : ℕ) (dentry : Dentry) : ℤ × Dentry :=
  match (List.range img.dirNum).find? fun i => index = (img.dirEntries i).inodeNum with
  | some i => (0, img.dirEntries i)
  | none => (-1, dentry)

/-- The loop of `read_data`, with `n` bytes left to read. -/
def readLoop (inode : Inode) : ℕ → ℕ → ℕ → ℕ → ℕ → List UInt8
  | 0, _, _, _, _ => []
  | n + 1, offset, index, num, blockOffset =>
    if inode.lengthInBytes ≤ offset then []
    else
      let byte := img.dataBlocks num blockOffset
      if fileBlockSize ≤ blockOffset + 1 then
        let num := inode.dataBlockNum (index + 1)
        if img.dataBlockNum ≤ num then [byte]
        else byte :: readLoop inode n (offset + 1) (index + 1) num (blockOffset + 1 - fileBlockSize)
      else byte :: readLoop inode n (offset + 1) index num (blockOffset + 1)

/-- `read_data`: the bytes read, or `none` for -1. -/
def readData (inode offset length : ℕ) : Option (List UInt8) :=
  if img.inodeNum ≤ inode then none
  else
    let index := offset / fileBlockSize
    let num := (img.inodes inode).dataBlockNum index
    let blockOffset := offset - index * fileBlockSize
    if img.dataBlockNum ≤ num then none
    else some (img.readLoop (img.inodes inode) length offset index num blockOffset)

end FsImage

/-! ## Descriptors -/

/-- An entry that is not in use. -/
def FileArrayEntry.free : FileArrayEntry where
  fileOpTable := .terminal
  inode := 0
  filePosition := 0
  inUse := false

namespace FileArray

variable (fa : FileArray)

/-- `opened_files[fd] = e`. -/
def set (fd : Fin 8) (e : FileArrayEntry) : FileArray :=
  { fa with openedFiles := Function.update fa.openedFiles fd e }

/-- `init_file_array`: the other entries keep all but their flag. -/
def init : FileArray where
  openedFiles := fun fd =>
    if fd = 0 then { fileOpTable := .terminal, inode := 0, filePosition := 0, inUse := true }
    else if fd = 1 then { fileOpTable := .terminal, inode := 1, filePosition := 1, inUse := true }
    else { fa.openedFiles fd with inUse := false }
  currentOpenFileNum := 2

/-- `get_free_fd`; `none` is `MAX_OPEN_FILE`. -/
def getFreeFd : Option (Fin 8) :=
  [2, 3, 4, 5, 6, 7].find? fun fd => !(fa.openedFiles fd).inUse

/-- What the three `open` operations do to the array: take a free descriptor for
the operation table and the inode. -/
def openEntry (table : OpTable) (inode : ℕ) : Except Fault (ℤ × FileArray) :=
  match fa.getFreeFd with
  | some fd =>
    .ok (fd.val,
      fa.set fd { fileOpTable := table, inode := inode, filePosition := 0, inUse := true })
  | none => .error .fileArrayBounds

/-- `file_open`. -/
def fileOpen (img : FsImage) (filename : List UInt8) : Except Fault (ℤ × FileArray) :=
  match img.readDentryByName filename with
  | none => .ok (-1, fa)
  | some dentry => fa.openEntry .file dentry.inodeNum

/-- `dir_open`. -/
def dirOpen : Except Fault (ℤ × FileArray) := fa.openEntry .dir 0

/-- `local_rtc_open`. -/
def localRtcOpen (rtc : RtcControl) : Except Fault (ℤ × FileArray × RtcControl) := do
  let (fd, fa) ← fa.openEntry .rtc 0
  .ok (fd, fa, systemRtcOpen rtc)

/-- `current_open_file_num++`. -/
def countUp : FileArray := { fa with currentOpenFileNum := fa.currentOpenFileNum + 1 }

/-- `system_open`. -/
def systemOpen (rtc : RtcControl) (img : FsImage) (filename : List UInt8) :
    Except Fault (ℤ × FileArray × RtcControl) :=
  if (maxOpenFile : ℤ) ≤ fa.currentOpenFileNum then .ok (-1, fa, rtc)
  else
    match img.readDentryByName filename with
    | none => .ok (-1, fa, rtc)
    | some dentry =>
      match dentry.fileType with
      | 0 => do
        let (fd, fa, rtc) ← fa.localRtcOpen rtc
        .ok (fd, fa.countUp, rtc)
      | 1 => do
        let (fd, fa) ← fa.dirOpen
        .ok (fd, fa.countUp, rtc)
      | 2 => do
        let (fd, fa) ← fa.fileOpen img filename
        .ok (fd, fa.countUp, rtc)
      | _ => .ok (-1, fa, rtc)

/-- A descriptor that the system calls accept: in range and in use. -/
def usable (fd : ℤ) : Option (Fin 8) :=
  if h : 0 ≤ fd ∧ fd < 8 then
    let i : Fin 8 := ⟨fd.toNat, by omega⟩
    if (fa.openedFiles i).inUse then some i else none
  else none

/-- `system_close`; the `close` operations of all four tables return 0. -/
def systemClose (fd : ℤ) : ℤ × FileArray :=
  if fd = 0 ∨ fd = 1 then (-1, fa)
  else
    match fa.usable fd with
    | none => (-1, fa)
    | some i =>
      (0, { fa.set i { fa.openedFiles i with inUse := false } with
        currentOpenFileNum := fa.currentOpenFileNum - 1 })

/-- `clear_file_array`. -/
def clear : FileArray :=
  [2, 3, 4, 5, 6, 7].foldl (fun fa (fd : ℕ) => (fa.systemClose fd).2) fa

/-- The result of a `read` operation: the value returned and the bytes written to
the buffer, or the device that has to be waited for. -/
inductive ReadCall where
  | done (ret : ℤ) (bytes : List UInt8) (fa : FileArray)
  | terminal
  | rtc

/-- `file_read`; `ret` is an `int32_t`, so a read of 2^32 - 1 bytes looks like a failed one. -/
def fileRead (img : FsImage) (fd : Fin 8) (nbytes : ℤ) : ReadCall :=
  let e := fa.openedFiles fd
  match img.readData e.inode e.filePosition (nbytes % 2 ^ 32).toNat with
  | none => .done (-1) [] fa
  | some bytes =>
    let ret := (BitVec.ofNat 32 bytes.length).toInt
    if ret = -1 then .done (-1) bytes fa
    else
      .done ret bytes
        (fa.set fd { e with filePosition := (e.filePosition + bytes.length) % 2 ^ 32 })

/-- `dir_read`. -/
def dirRead (img : FsImage) (fd : Fin 8) (nbytes : ℤ) : ReadCall :=
  let e := fa.openedFiles fd
  if img.dirNum ≤ e.filePosition then .done 0 [] fa
  else
    let bufSize := if nbytes > fileNameLength then (fileNameLength : ℤ) else nbytes
    .done bufSize (strncpy (img.dirEntries e.filePosition).fileName (bufSize % 2 ^ 32).toNat)
      (fa.set fd { e with filePosition := e.filePosition + 1 })

/-- `system_read`, up to the sleep of a terminal or RTC read. -/
def systemRead (img : FsImage) (fd : ℤ) (bufNull : Bool) (nbytes : ℤ) : ReadCall :=
  if nbytes ≠ 0 ∧ bufNull then .done (-1) [] fa
  else
    match fa.usable fd with
    | none => .done (-1) [] fa
    | some i =>
      match (fa.openedFiles i).fileOpTable with
      | .terminal => if fd ≠ 0 then .done (-1) [] fa else .terminal
      | .rtc => .rtc
      | .dir => fa.dirRead img i nbytes
      | .file => fa.fileRead img i nbytes

/-- `system_write`; `word` is the first word of the buffer. -/
def systemWrite (rtc : RtcControl) (fd : ℤ) (bufNull : Bool) (word : BitVec 32) (nbytes : ℤ) :
    Except Fault (ℤ × RtcControl) :=
  if nbytes ≠ 0 ∧ bufNull then .ok (-1, rtc)
  else
    match fa.usable fd with
    | none => .ok (-1, rtc)
    | some i =>
      match (fa.openedFiles i).fileOpTable with
      | .terminal => .ok (if fd ≠ 1 then -1 else max nbytes 0, rtc)
      | .rtc => systemRtcWrite rtc bufNull word nbytes
      | .dir => .ok (-1, rtc)
      | .file => .ok (-1, rtc)

end FileArray

end AuroraOS
